/-
**Coherence of the inode table.**

`EntryOk` is what holds of one entry, its references, its dinode and the processes that work on it;
one lemma for each kind of step says that it is kept. The entries do not disturb each other, because
entries in use are for different inodes (`TableInv.act`), and `ialloc` does not disturb an entry,
because a dinode with type 0 is the dinode of no entry that is valid, except one whose `iput` has
written the 0 and is about to clear `valid`.

**`table_coherent`** states the result for every run.
-/

import Xv6.Fs.Table

set_option linter.unusedSectionVars false

namespace Xv6

open Lib Function

/-! ### The dinode -/

namespace DiskInode

variable {d : DiskInode} {bn k : Nat}

theorem bmap_of_mapped (mapped : d.addrs (slot bn) ≠ 0) (fresh : Nat) : d.bmap bn fresh = d :=
  if_neg mapped

theorem bmap_frame (d : DiskInode) (bn fresh : Nat) :
    (d.bmap bn fresh).type = d.type ∧ (d.bmap bn fresh).size = d.size := by
  unfold bmap
  split <;> exact ⟨rfl, rfl⟩

theorem bmap_mapped (d : DiskInode) (bn : Nat) {fresh : Nat} (nonzero : fresh ≠ 0) (bn' : Nat)
    (was : bn' = bn ∨ d.addrs (slot bn') ≠ 0) : (d.bmap bn fresh).addrs (slot bn') ≠ 0 := by
  unfold bmap
  split
  · rename_i missing
    show update d.addrs (slot bn) fresh (slot bn') ≠ 0
    by_cases same : slot bn' = slot bn
    · rw [same, update_self]
      exact nonzero
    · rw [update_of_ne same]
      rcases was with rfl | mapped
      · exact absurd rfl same
      · exact mapped
  · rename_i mapped
    rcases was with rfl | mapped'
    · exact mapped
    · exact mapped'

theorem bmaps_frame (d : DiskInode) (fresh : Nat → Nat) (bn k : Nat) :
    (d.bmaps fresh bn k).type = d.type ∧ (d.bmaps fresh bn k).size = d.size := by
  induction k with
  | zero => exact ⟨rfl, rfl⟩
  | succ k ih =>
    obtain ⟨type, size⟩ := (d.bmaps fresh bn k).bmap_frame (bn + k) (fresh (bn + k))
    exact ⟨type.trans ih.1, size.trans ih.2⟩

theorem bmaps_mapped (d : DiskInode) {fresh : Nat → Nat} (nonzero : ∀ bn, fresh bn ≠ 0)
    (bn k bn' : Nat) (was : (bn ≤ bn' ∧ bn' < bn + k) ∨ d.addrs (slot bn') ≠ 0) :
    (d.bmaps fresh bn k).addrs (slot bn') ≠ 0 := by
  induction k with
  | zero =>
    rcases was with none | mapped
    · omega
    · exact mapped
  | succ k ih =>
    apply bmap_mapped _ _ (nonzero _)
    by_cases last : bn' = bn + k
    · exact .inl last
    · right
      apply ih
      rcases was with early | mapped
      · exact .inl (by omega)
      · exact .inr mapped

/-- **`readi` does not change the dinode**: what it reads is mapped. -/
theorem bmaps_of_mapped (mapped : d.Mapped) (fresh : Nat → Nat)
    (below : (bn + k - 1) * BSIZE < d.size) : d.bmaps fresh bn k = d := by
  induction k with
  | zero => rfl
  | succ k ih =>
    have early : (bn + k - 1) * BSIZE < d.size :=
      Nat.lt_of_le_of_lt (Nat.mul_le_mul_right _ (by omega)) below
    rw [bmaps, ih early]
    exact bmap_of_mapped (mapped (bn + k) below) _

theorem Mapped.truncated (d : DiskInode) : d.truncated.Mapped :=
  fun _ none => absurd none (Nat.not_lt_zero _)

theorem Mapped.allocated (type : FType) : (allocated type).Mapped :=
  fun _ none => absurd none (Nat.not_lt_zero _)

theorem Mapped.written (mapped : d.Mapped) {fresh : Nat → Nat} (nonzero : ∀ bn, fresh bn ≠ 0)
    {off stop : Nat} (inside : off ≤ d.size) (reaches : stop ≤ (off / BSIZE + k) * BSIZE) :
    (d.written fresh off k stop).Mapped := by
  intro bn below
  have below : bn * BSIZE < max d.size stop := below
  apply bmaps_mapped d nonzero
  by_cases old : bn * BSIZE < d.size
  · exact .inr (mapped bn old)
  · left
    have positive : 0 < BSIZE := by decide
    have first : off / BSIZE ≤ bn := by
      have start : off / BSIZE * BSIZE ≤ bn * BSIZE :=
        (Nat.div_mul_le_self off BSIZE).trans (by omega)
      exact Nat.le_of_mul_le_mul_right start positive
    have last : bn * BSIZE < (off / BSIZE + k) * BSIZE := by omega
    exact ⟨first, Nat.lt_of_mul_lt_mul_right last⟩

end DiskInode

namespace TableSys

variable {P : Type} [DecidableEq P]

/-! ### One entry -/

/-- **One entry is coherent** with its references, its dinode and the processes. -/
structure EntryOk (x : TableEntry P) (refs : List P) (disk : DiskInode) (pc : P → TablePc)
    (e : Fin NINODE) : Prop where
  count : x.ref = refs.length
  holder : ∀ p, x.lock = some p → p ∈ refs
  working : ∀ p w, pc p = .at e w → w ≠ .drop → x.lock = some p
  dropping : ∀ p, pc p = .at e .drop → p ∈ refs ∧ x.lock ≠ some p
  loaded : ∀ p, x.lock = some p → pc p ≠ .at e .locking → x.valid = true
  current : refs ≠ [] → x.valid = true → (∀ p, pc p ≠ .at e .invalidate) →
    x.ip.type ≠ .free ∧ disk.type ≠ .free ∧ ((∀ p, pc p ≠ .at e .dirty) → x.ip = disk)
  mapped : refs ≠ [] → x.valid = true → x.ip.Mapped

section Entry

variable {x : TableEntry P} {refs : List P} {disk : DiskInode} {pc : P → TablePc} {e : Fin NINODE}
  {p : P}
  {disk' : DiskInode} {w : Work} {q : P}

theorem EntryOk.frame (ok : EntryOk x refs disk pc e) {pc' : P → TablePc}
    (same : ∀ q w, pc' q = .at e w ↔ pc q = .at e w)
    (kept : refs ≠ [] → x.valid = true → (∀ q, pc q ≠ .at e .invalidate) → disk' = disk) :
    EntryOk x refs disk' pc' e where
  count := ok.count
  holder := ok.holder
  working := fun q w here => ok.working q w ((same q w).mp here)
  dropping := fun q here => ok.dropping q ((same q .drop).mp here)
  loaded := fun q holds notLocking => ok.loaded q holds
    fun here => notLocking ((same q .locking).mpr here)
  current := by
    intro used valid noInvalidate
    have before : ∀ q, pc q ≠ .at e .invalidate :=
      fun q here => noInvalidate q ((same q .invalidate).mpr here)
    rw [kept used valid before]
    obtain ⟨typed, onDisk, clean⟩ := ok.current used valid before
    exact ⟨typed, onDisk, fun noDirty => clean fun q here => noDirty q ((same q .dirty).mpr here)⟩
  mapped := ok.mapped

/-- While `p` holds the lock, another process is at most about to drop its reference. -/
theorem EntryOk.other_drops (ok : EntryOk x refs disk pc e) (mine : x.lock = some p) (other : q ≠ p)
    (here : pc q = .at e w) : w = .drop := by
  by_contra working
  have theirs := ok.working q w here working
  rw [mine] at theirs
  exact other (Option.some.inj theirs).symm

theorem EntryOk.unlocked (ok : EntryOk x refs disk pc e) (free : x.lock = none)
    (here : pc q = .at e w) : w = .drop := by
  by_contra working
  have theirs := ok.working q w here working
  rw [free] at theirs
  cases theirs

theorem EntryOk.reref (ok : EntryOk x refs disk pc e) {refs' : List P} {ref : Int}
    (count : ref = refs'.length) (holder : ∀ q, x.lock = some q → q ∈ refs')
    (dropping : ∀ q, pc q = .at e .drop → q ∈ refs') (used : refs' ≠ [] → refs ≠ []) :
    EntryOk { x with ref := ref } refs' disk pc e where
  count := count
  holder := holder
  working := ok.working
  dropping := fun q here => ⟨dropping q here, (ok.dropping q here).2⟩
  loaded := ok.loaded
  current := fun nonempty => ok.current (used nonempty)
  mapped := fun nonempty => ok.mapped (used nonempty)

theorem update_idle (idle : pc p = .idle) : update pc p .idle = pc := by
  rw [← idle]
  exact update_eq_self p pc

theorem EntryOk.more (ok : EntryOk x refs disk pc e) (used : refs ≠ []) (idle : pc p = .idle) :
    EntryOk { x with ref := x.ref + 1 } (p :: refs) disk (update pc p .idle) e := by
  rw [update_idle idle]
  apply ok.reref
  · rw [ok.count, List.length_cons]
    push_cast
    rfl
  · exact fun q holds => List.mem_cons_of_mem _ (ok.holder q holds)
  · exact fun q here => List.mem_cons_of_mem _ (ok.dropping q here).1
  · exact fun _ => used

/-- Who needs a reference still has one when `p` puts one it can spare. -/
theorem mem_erase_of_spare {r : P} (member : r ∈ refs) (spare : r = p → 2 ≤ refs.count p) :
    r ∈ refs.erase p := by
  by_cases same : r = p
  · subst same
    have twice := spare rfl
    apply List.count_pos_iff.mp
    rw [List.count_erase_self]
    omega
  · exact (List.mem_erase_of_ne same).mpr member

section

variable (ok : EntryOk x refs disk pc e)

include ok

theorem EntryOk.put (idle : pc p = .idle) (mine : p ∈ refs)
    (spare : x.lock = some p → 2 ≤ refs.count p) :
    EntryOk { x with ref := x.ref - 1 } (refs.erase p) disk (update pc p .idle) e := by
  rw [update_idle idle]
  apply ok.reref
  · have positive : 0 < refs.length := List.length_pos_of_mem mine
    rw [ok.count, List.length_erase_of_mem mine]
    omega
  · exact fun r holds => mem_erase_of_spare (ok.holder r holds) fun same => spare (same ▸ holds)
  · intro r here
    refine mem_erase_of_spare (ok.dropping r here).1 fun same => ?_
    rw [same, idle] at here
    cases here
  · exact fun _ => List.ne_nil_of_mem mine

theorem EntryOk.give (q : P) (idle : pc p = .idle) (mine : p ∈ refs)
    (spare : x.lock = some p → 2 ≤ refs.count p) :
    EntryOk x (q :: refs.erase p) disk (update pc p .idle) e := by
  have put := ok.put idle mine spare
  rw [update_idle idle] at put ⊢
  have given : EntryOk { x with ref := x.ref } (q :: refs.erase p) disk pc e := by
    apply ok.reref
    · have count : x.ref - 1 = (refs.erase p).length := put.count
      rw [List.length_cons]
      omega
    · exact fun r holds => List.mem_cons_of_mem _ (put.holder r holds)
    · exact fun r here => List.mem_cons_of_mem _ (put.dropping r here).1
    · exact fun _ => List.ne_nil_of_mem mine
  exact given

theorem EntryOk.drop (here : pc p = .at e .drop) :
    EntryOk { x with ref := x.ref - 1 } (refs.erase p) disk (update pc p .idle) e := by
  obtain ⟨mine, notHeld⟩ := ok.dropping p here
  have moved : EntryOk x refs disk (update pc p .idle) e := by
    refine ⟨ok.count, ok.holder, ?_, ?_, ?_, ?_, ok.mapped⟩
    · exact fun q w there => ok.working q w (of_update_eq there nofun).2
    · exact fun q there => ok.dropping q (of_update_eq there nofun).2
    · intro q holds notLocking
      have other : q ≠ p := fun same => notHeld (same ▸ holds)
      rw [update_of_ne other] at notLocking
      exact ok.loaded q holds notLocking
    · intro used valid noInvalidate
      have elsewhere : ∀ w, w ≠ .drop → (∀ q, update pc p .idle q ≠ .at e w) → ∀ q,
        pc q ≠ .at e w := by
        intro w other none q there
        by_cases same : q = p
        · rw [same, here] at there
          cases there
          exact other rfl
        · exact none q (by rwa [update_of_ne same])
      obtain ⟨typed, onDisk, clean⟩ :=
        ok.current used valid (elsewhere .invalidate nofun noInvalidate)
      exact ⟨typed, onDisk, fun noDirty => clean (elsewhere .dirty nofun noDirty)⟩
  apply moved.reref
  · have positive : 0 < refs.length := List.length_pos_of_mem mine
    rw [ok.count, List.length_erase_of_mem mine]
    omega
  · intro q holds
    have other : q ≠ p := fun same => notHeld (same ▸ holds)
    exact (List.mem_erase_of_ne other).mpr (ok.holder q holds)
  · exact fun q there => (List.mem_erase_of_ne (of_update_eq there nofun).1).mpr
      (moved.dropping q there).1
  · exact fun _ => List.ne_nil_of_mem mine

theorem EntryOk.recycle (unused : x.ref = 0) (dev inum : Nat) (disk' : DiskInode) :
    EntryOk { x with dev := dev, inum := inum, ref := 1, valid := false } (p :: refs) disk'
      (update pc p .idle) e := by
  have empty : refs = [] := by
    have count := ok.count
    rw [unused] at count
    exact List.length_eq_zero_iff.mp (Int.natCast_eq_zero.mp count.symm)
  subst empty
  have noWork : ∀ q w, pc q ≠ .at e w := by
    intro q w there
    by_cases dropping : w = .drop
    · subst dropping
      exact List.not_mem_nil (ok.dropping q there).1
    · exact List.not_mem_nil (ok.holder q (ok.working q w there dropping))
  have noWork' : ∀ q w, update pc p .idle q ≠ .at e w :=
    fun q w => update_ind nofun fun _ => noWork q w
  refine ⟨rfl, ?_, ?_, ?_, ?_, nofun, nofun⟩
  · exact fun q holds => absurd (ok.holder q holds) List.not_mem_nil
  · exact fun q w there => absurd there (noWork' q w)
  · exact fun q there => absurd there (noWork' q .drop)
  · exact fun q holds => absurd (ok.holder q holds) List.not_mem_nil

/-- **A step of the process that holds the sleep lock**, or takes it: nobody else works on the
entry, so what has to be shown is about that process alone. -/
theorem EntryOk.section {x' : TableEntry P} {w : TablePc} (ref : x'.ref = x.ref)
    (alone : x.lock = none ∨ x.lock = some p) (mine : p ∈ refs)
    (lock : x'.lock = some p ∨ x'.lock = none)
    (works : ∀ v, w = .at e v → v ≠ .drop → x'.lock = some p)
    (notDrop : w = .at e .drop → x'.lock = none)
    (loaded : x'.lock = some p → w ≠ .at e .locking → x'.valid = true)
    (current : x'.valid = true → w ≠ .at e .invalidate →
      x'.ip.type ≠ .free ∧ disk'.type ≠ .free ∧ (w ≠ .at e .dirty → x'.ip = disk'))
    (mapped : x'.valid = true → x'.ip.Mapped) : EntryOk x' refs disk' (update pc p w) e := by
  have others : ∀ {q v}, q ≠ p → pc q = .at e v → v = .drop := by
    intro q v other there
    rcases alone with free | held
    · exact ok.unlocked free there
    · exact ok.other_drops held other there
  refine ⟨ref.trans ok.count, ?_, ?_, ?_, ?_, ?_, fun _ => mapped⟩
  · intro q holds
    rcases lock with held | free
    · rw [held] at holds
      cases holds
      exact mine
    · rw [free] at holds
      cases holds
  · exact fun q v => update_ind (works v)
      fun other there working => absurd (others other there) working
  · intro q
    refine update_ind (fun there => ?_) fun same there => ?_
    · rw [notDrop there]
      exact ⟨mine, nofun⟩
    · refine ⟨(ok.dropping q there).1, fun holds => ?_⟩
      rcases lock with held | free
      · rw [held] at holds
        exact same (Option.some.inj holds).symm
      · rw [free] at holds
        cases holds
  · intro q holds notLocking
    rcases lock with held | free
    · have same : q = p := by
        rw [held] at holds
        exact (Option.some.inj holds).symm
      rw [same, update_self] at notLocking
      exact loaded held notLocking
    · rw [free] at holds
      cases holds
  · intro _ valid noInvalidate
    have here : w ≠ .at e .invalidate := by
      have none := noInvalidate p
      rwa [update_self] at none
    obtain ⟨typed, onDisk, clean⟩ := current valid here
    refine ⟨typed, onDisk, fun noDirty => clean ?_⟩
    have none := noDirty p
    rwa [update_self] at none

/-- What the process that holds the lock knows when it is not in the middle of a change. -/
theorem EntryOk.holds (mine : x.lock = some p)
    (here : pc p ≠ .at e .locking ∧ pc p ≠ .at e .invalidate) :
    x.valid = true ∧ x.ip.Mapped ∧ x.ip.type ≠ .free ∧ disk.type ≠ .free ∧
      (pc p ≠ .at e .dirty → x.ip = disk) := by
  have used : refs ≠ [] := List.ne_nil_of_mem (ok.holder p mine)
  have valid := ok.loaded p mine here.1
  have only : ∀ w, w ≠ .drop → pc p ≠ .at e w → ∀ q, pc q ≠ .at e w := by
    intro w working notMine q there
    by_cases same : q = p
    · exact notMine (same ▸ there)
    · exact working (ok.other_drops mine same there)
  obtain ⟨typed, onDisk, clean⟩ := ok.current used valid (only .invalidate nofun here.2)
  exact ⟨valid, ok.mapped used valid, typed, onDisk,
    fun notDirty => clean (only .dirty nofun notDirty)⟩

end

end Entry

/-! ### The table -/

structure TableInv (s : TableSys P) : Prop where
  entries : ∀ e, EntryOk (s.entry e) (s.refs e) (s.diskOf e) s.pc e
  unique : ∀ e e', s.refs e ≠ [] → s.refs e' ≠ [] → (s.entry e).dev = (s.entry e').dev →
    (s.entry e).inum = (s.entry e').inum → e = e'
  disk : ∀ dev inum, (s.disk dev inum).Mapped

section Steps

variable {s : TableSys P} {p : P} {e : Fin NINODE} {x : TableEntry P} {t : TableSys P}
  {pc : TablePc} {dev inum : Nat}
  {refs : List P} {w : Work}

/-- **A step on one entry** that leaves the dinodes of the other entries alone. -/
theorem TableInv.act (inv : TableInv s) {disk : Nat → Nat → DiskInode}
    (before : ∀ e' w, s.pc p = .at e' w → e' = e) (after : ∀ e' w, pc = .at e' w → e' = e)
    (unique : ∀ e', e' ≠ e → s.refs e' ≠ [] → (s.entry e').dev = x.dev →
      (s.entry e').inum = x.inum → refs = [])
    (kept : ∀ e', e' ≠ e → s.refs e' ≠ [] → disk (s.entry e').dev (s.entry e').inum = s.diskOf e')
    (mapped : ∀ dev inum, (disk dev inum).Mapped)
    (ok : EntryOk x refs (disk x.dev x.inum) (update s.pc p pc) e) :
    TableInv (s.act p pc e x refs disk) := by
  have entries : ∀ e', e' ≠ e → (s.act p pc e x refs disk).entry e' = s.entry e' ∧
      (s.act p pc e x refs disk).refs e' = s.refs e' :=
    fun e' other => ⟨update_of_ne other _ _, update_of_ne other _ _⟩
  have here : (s.act p pc e x refs disk).entry e = x ∧ (s.act p pc e x refs disk).refs e = refs :=
    ⟨update_self .., update_self ..⟩
  refine ⟨?_, ?_, mapped⟩
  · intro e'
    unfold diskOf
    by_cases this : e' = e
    · rw [this, here.1, here.2]
      exact ok
    · rw [(entries e' this).1, (entries e' this).2]
      apply (inv.entries e').frame
      · intro q w
        show update s.pc p pc q = .at e' w ↔ _
        refine update_ind ?_ fun _ => Iff.rfl
        exact ⟨fun there => absurd (after e' w there) this,
          fun there => absurd (before e' w there) this⟩
      · exact fun used _ _ => kept e' this used
  · intro e₁ e₂ used₁ used₂ dev inum
    by_cases first : e₁ = e
    · by_cases second : e₂ = e
      · rw [first, second]
      · rw [first, here.1, (entries e₂ second).1] at dev inum
        rw [first, here.2] at used₁
        rw [(entries e₂ second).2] at used₂
        exact absurd (unique e₂ second used₂ dev.symm inum.symm) used₁
    · rw [(entries e₁ first).1] at dev inum
      rw [(entries e₁ first).2] at used₁
      by_cases second : e₂ = e
      · rw [second, here.1] at dev inum
        rw [second, here.2] at used₂
        exact absurd (unique e₁ first used₁ dev inum) used₂
      · rw [(entries e₂ second).1] at dev inum
        rw [(entries e₂ second).2] at used₂
        exact inv.unique e₁ e₂ used₁ used₂ dev inum

theorem TableInv.act_quiet (inv : TableInv s) (before : ∀ e' w, s.pc p = .at e' w → e' = e)
    (after : ∀ e' w, pc = .at e' w → e' = e) (used : s.refs e ≠ []) (dev : x.dev = (s.entry e).dev)
    (inum : x.inum = (s.entry e).inum) (ok : EntryOk x refs (s.diskOf e) (update s.pc p pc) e) :
    TableInv (s.act p pc e x refs s.disk) := by
  apply inv.act before after
  · intro e' other used' sameDev sameInum
    exact absurd (inv.unique e' e used' used (sameDev.trans dev) (sameInum.trans inum)) other
  · exact fun _ _ _ => rfl
  · exact inv.disk
  · rw [dev, inum]
    exact ok

theorem writeDisk_self (s : TableSys P) (dev inum : Nat) (d : DiskInode) :
    s.writeDisk dev inum d dev inum = d := by
  rw [writeDisk, update_self, update_self]

theorem writeDisk_of_ne (s : TableSys P) {dev' inum' : Nat} (d : DiskInode)
    (other : ¬ (dev' = dev ∧ inum' = inum)) :
    s.writeDisk dev inum d dev' inum' = s.disk dev' inum' := by
  unfold writeDisk
  by_cases same : dev' = dev
  · subst same
    rw [update_self, update_of_ne fun this => other ⟨rfl, this⟩]
  · rw [update_of_ne same]

theorem mapped_writeDisk (inv : TableInv s) {d : DiskInode} (mapped : d.Mapped)
    (dev inum dev' inum' : Nat) : (s.writeDisk dev inum d dev' inum').Mapped := by
  by_cases same : dev' = dev ∧ inum' = inum
  · rw [same.1, same.2, writeDisk_self]
    exact mapped
  · rw [writeDisk_of_ne s d same]
    exact inv.disk dev' inum'

theorem TableInv.act_update (inv : TableInv s) (before : ∀ e' w, s.pc p = .at e' w → e' = e)
    (after : ∀ e' w, pc = .at e' w → e' = e) (used : s.refs e ≠ []) (dev : x.dev = (s.entry e).dev)
    (inum : x.inum = (s.entry e).inum) (mapped : x.ip.Mapped)
    (ok : EntryOk x (s.refs e) x.ip (update s.pc p pc) e) :
    TableInv (s.act p pc e x (s.refs e) (s.writeDisk x.dev x.inum x.ip)) := by
  have distinct : ∀ e', e' ≠ e → s.refs e' ≠ [] →
    ¬ ((s.entry e').dev = x.dev ∧ (s.entry e').inum = x.inum) :=
    fun e' other used' same =>
      other (inv.unique e' e used' used (same.1.trans dev) (same.2.trans inum))
  apply inv.act before after
  · exact fun e' other used' sameDev sameInum => absurd ⟨sameDev, sameInum⟩
      (distinct e' other used')
  · exact fun e' other used' => writeDisk_of_ne s _ (distinct e' other used')
  · exact mapped_writeDisk inv mapped _ _
  · rw [writeDisk_self]
    exact ok

theorem before_idle (idle : s.pc p = .idle) : ∀ e' w, s.pc p = .at e' w → e' = e := by
  intro e' w there
  rw [idle] at there
  cases there

theorem before_at (here : s.pc p = .at e w) : ∀ e' w', s.pc p = .at e' w' → e' = e := by
  intro e' w' there
  rw [here] at there
  cases there
  rfl

theorem after_at : ∀ e' w', TablePc.at e w = .at e' w' → e' = e := by
  intro e' w' same
  cases same
  rfl

theorem used_iff (inv : TableInv s) (e : Fin NINODE) : 0 < (s.entry e).ref ↔ s.refs e ≠ [] := by
  rw [(inv.entries e).count, ← List.length_pos_iff]
  exact Int.natCast_pos

theorem lookup_some (found : s.lookup dev inum = some e) :
    0 < (s.entry e).ref ∧ (s.entry e).dev = dev ∧ (s.entry e).inum = inum := by
  have here := List.find?_some found
  exact of_decide_eq_true here

theorem lookup_none (missed : s.lookup dev inum = none) (e : Fin NINODE) :
    ¬ (0 < (s.entry e).ref ∧ (s.entry e).dev = dev ∧ (s.entry e).inum = inum) := by
  have absent := List.find?_eq_none.mp missed e (List.mem_finRange e)
  exact fun here => absent (decide_eq_true here)

theorem empty_some (found : s.empty = some e) : (s.entry e).ref = 0 := by
  have here := List.find?_some found
  exact of_decide_eq_true here

theorem TableInv.iget (inv : TableInv s) (here : s.pc p = .idle ∨ s.pc p = .allocated dev inum)
    (got : s.iget p dev inum = .ok t) : TableInv t := by
  have before : ∀ (e e' : Fin NINODE) w, s.pc p = .at e' w → e' = e := by
    intro e e' w there
    rcases here with idle | allocated
    · rw [idle] at there
      cases there
    · rw [allocated] at there
      cases there
  -- `ialloc` calls `iget` as an idle process would
  have moved : ∀ {x : TableEntry P} {refs : List P} {disk : DiskInode} {e : Fin NINODE},
      EntryOk x refs disk s.pc e → EntryOk x refs disk (update s.pc p .idle) e := by
    intro x refs disk e ok
    apply ok.frame
    · refine fun q w => update_ind ⟨nofun, fun there => ?_⟩ fun _ => Iff.rfl
      rcases here with idle | allocated
      · rw [idle] at there
        cases there
      · rw [allocated] at there
        cases there
    · exact fun _ _ _ => rfl
  unfold TableSys.iget at got
  split at got
  · rename_i e found
    cases got
    have positive : 0 < (s.entry e).ref := (lookup_some found).1
    have used := (used_iff inv e).mp positive
    refine inv.act_quiet (before e) nofun used rfl rfl ?_
    have more := (moved (inv.entries e)).more (p := p) used (update_self ..)
    rwa [update_idem] at more
  · rename_i missed
    split at got
    · cases got
    · rename_i e found
      cases got
      have unused : (s.entry e).ref = 0 := empty_some found
      refine inv.act (before e) nofun ?_ ?_ ?_ ?_
      · intro e' _ used sameDev sameInum
        exact absurd ⟨(used_iff inv e').mpr used, sameDev, sameInum⟩ (lookup_none missed e')
      · exact fun _ _ _ => rfl
      · exact inv.disk
      · exact (inv.entries e).recycle unused dev inum _

/-- **`ialloc` marks a free dinode allocated**: no valid entry is a copy of it. -/
theorem TableInv.ialloc (inv : TableInv s) {type : FType} (idle : s.pc p = .idle)
    (free : (s.disk dev inum).type = .free) : TableInv { s with
      disk := s.writeDisk dev inum (.allocated type)
      pc := update s.pc p (.allocated dev inum) } := by
  refine ⟨?_, inv.unique, mapped_writeDisk inv (.allocated type) dev inum⟩
  intro e
  apply (inv.entries e).frame
  · intro q w
    show update s.pc p (.allocated dev inum) q = .at e w ↔ _
    refine update_ind ?_ fun _ => Iff.rfl
    rw [idle]
    exact ⟨nofun, nofun⟩
  · intro used valid noInvalidate
    obtain ⟨-, typed, -⟩ := (inv.entries e).current used valid noInvalidate
    apply writeDisk_of_ne
    intro same
    refine typed ?_
    unfold diskOf
    rw [same.1, same.2]
    exact free

theorem TableInv.change (inv : TableInv s) (mine : s.Using p e) {ip : DiskInode}
    (type : ip.type = (s.entry e).ip.type) (mapped : (s.entry e).ip.Mapped → ip.Mapped) :
    TableInv (s.act p (.at e .dirty) e { s.entry e with ip := ip } (s.refs e) s.disk) := by
  have ok := inv.entries e
  have notWorking : s.pc p ≠ .at e .locking ∧ s.pc p ≠ .at e .invalidate := by
    rw [mine.1]
    exact ⟨nofun, nofun⟩
  obtain ⟨valid, isMapped, typed, onDisk, -⟩ := ok.holds mine.2 notWorking
  have member := ok.holder p mine.2
  refine inv.act_quiet (before_idle mine.1) after_at (List.ne_nil_of_mem member) rfl rfl ?_
  refine ok.section rfl (.inr mine.2) member (.inl mine.2) ?_ ?_ ?_ ?_ ?_
  · exact fun _ _ _ => mine.2
  · nofun
  · exact fun _ _ => valid
  · intro _ _
    refine ⟨?_, onDisk, fun notDirty => absurd rfl notDirty⟩
    show ip.type ≠ .free
    rw [type]
    exact typed
  · exact fun _ => mapped isMapped

theorem TableInv.iputStep (inv : TableInv s) (here : s.pc p = .at e w)
    (goes : s.iputStep p e w = some t) : TableInv t := by
  have ok := inv.entries e
  cases w with
  | locking => cases goes
  | dirty => cases goes
  | trunc =>
    cases goes
    have mine := ok.working p .trunc here nofun
    have member := ok.holder p mine
    obtain ⟨valid, -, typed, -, -⟩ := ok.holds mine (by rw [here]; exact ⟨nofun, nofun⟩)
    refine inv.act_update (before_at here) after_at (List.ne_nil_of_mem member) rfl rfl
      (.truncated _) ?_
    refine ok.section rfl (.inr mine) member (.inl mine) ?_ ?_ ?_ ?_ ?_
    · exact fun _ _ _ => mine
    · nofun
    · exact fun _ _ => valid
    · exact fun _ _ => ⟨typed, typed, fun _ => rfl⟩
    · exact fun _ => .truncated _
  | clear =>
    cases goes
    have mine := ok.working p .clear here nofun
    have member := ok.holder p mine
    obtain ⟨valid, mapped, -⟩ := ok.holds mine (by rw [here]; exact ⟨nofun, nofun⟩)
    refine inv.act_update (before_at here) after_at (List.ne_nil_of_mem member) rfl rfl mapped ?_
    refine ok.section rfl (.inr mine) member (.inl mine) ?_ ?_ ?_ ?_ ?_
    · exact fun _ _ _ => mine
    · nofun
    · exact fun _ _ => valid
    · exact fun _ notHere => absurd rfl notHere
    · exact fun _ => mapped
  | invalidate =>
    cases goes
    have mine := ok.working p .invalidate here nofun
    have member := ok.holder p mine
    refine inv.act_quiet (before_at here) after_at (List.ne_nil_of_mem member) rfl rfl ?_
    refine ok.section rfl (.inr mine) member (.inr rfl) ?_ ?_ ?_ ?_ ?_
    · intro v same working
      cases same
      exact absurd rfl working
    · exact fun _ => rfl
    · nofun
    · nofun
    · nofun
  | drop =>
    cases goes
    have member := (ok.dropping p here).1
    exact inv.act_quiet (before_at here) nofun (List.ne_nil_of_mem member) rfl rfl (ok.drop here)

theorem TableInv.step {event : TableEvent P} (inv : TableInv s) (step : Step s event t) :
    TableInv t := by
  obtain ⟨nonzero, executed⟩ := step
  cases does_of_exec executed with
  | iget p dev inum t idle got => exact inv.iget (.inl idle) got
  | iallocGet p dev inum t here got => exact inv.iget (.inr here) got
  | ialloc p dev inum type idle _ free => exact inv.ialloc idle free
  | idup p e idle mine =>
    have used : s.refs e ≠ [] := List.ne_nil_of_mem mine
    exact inv.act_quiet (before_idle idle) nofun used rfl rfl ((inv.entries e).more used idle)
  | give p q e may =>
    have used : s.refs e ≠ [] := List.ne_nil_of_mem may.2.1
    exact inv.act_quiet (before_idle may.1) nofun used rfl rfl
      ((inv.entries e).give q may.1 may.2.1 may.2.2)
  | ilock p e idle mine free =>
    refine inv.act_quiet (before_idle idle) after_at (List.ne_nil_of_mem mine) rfl rfl ?_
    have ok := inv.entries e
    have used : s.refs e ≠ [] := List.ne_nil_of_mem mine
    have nobody : ∀ w, w ≠ .drop → ∀ q, s.pc q ≠ .at e w :=
      fun w working q there => working (ok.unlocked free there)
    refine ok.section rfl (.inl free) mine (.inl rfl) ?_ ?_ ?_ ?_ ?_
    · exact fun _ _ _ => rfl
    · nofun
    · exact fun _ notHere => absurd rfl notHere
    · intro valid _
      obtain ⟨typed, onDisk, clean⟩ := ok.current used valid (nobody .invalidate nofun)
      exact ⟨typed, onDisk, fun _ => clean (nobody .dirty nofun)⟩
    · exact fun valid => ok.mapped used valid
  | loadValid p e here valid =>
    have ok := inv.entries e
    have mine := ok.working p .locking here nofun
    have member := ok.holder p mine
    have used : s.refs e ≠ [] := List.ne_nil_of_mem member
    have nobody : ∀ w, w ≠ .drop → w ≠ .locking → ∀ q, s.pc q ≠ .at e w := by
      intro w working notLocking q there
      by_cases same : q = p
      · rw [same, here] at there
        cases there
        exact notLocking rfl
      · exact working (ok.other_drops mine same there)
    obtain ⟨typed, onDisk, clean⟩ := ok.current used valid (nobody .invalidate nofun nofun)
    refine inv.act_quiet (before_at here) nofun used rfl rfl ?_
    refine ok.section rfl (.inr mine) member (.inl mine) ?_ ?_ ?_ ?_ ?_
    · nofun
    · nofun
    · exact fun _ _ => valid
    · exact fun _ _ => ⟨typed, onDisk, fun _ => clean (nobody .dirty nofun nofun)⟩
    · exact fun _ => ok.mapped used valid
  | load p e here typed =>
    have ok := inv.entries e
    have mine := ok.working p .locking here nofun
    have member := ok.holder p mine
    refine inv.act_quiet (before_at here) nofun (List.ne_nil_of_mem member) rfl rfl ?_
    refine ok.section rfl (.inr mine) member (.inl mine) ?_ ?_ ?_ ?_ ?_
    · nofun
    · nofun
    · exact fun _ _ => rfl
    · exact fun _ _ => ⟨typed, typed, fun _ => rfl⟩
    · exact fun _ => inv.disk _ _
  | iunlock p e mine =>
    have ok := inv.entries e
    have member := ok.holder p mine.2
    obtain ⟨-, mapped, typed, onDisk, clean⟩ :=
      ok.holds mine.2 (by rw [mine.1]; exact ⟨nofun, nofun⟩)
    refine inv.act_quiet (before_idle mine.1) nofun (List.ne_nil_of_mem member) rfl rfl ?_
    refine ok.section rfl (.inr mine.2) member (.inr rfl) ?_ ?_ ?_ ?_ ?_
    · nofun
    · nofun
    · nofun
    · exact fun _ _ => ⟨typed, onDisk, fun _ => clean (by rw [mine.1]; nofun)⟩
    · exact fun _ => mapped
  | header p e major minor nlink mine => exact inv.change mine rfl id
  | write p e fresh off k stop mine inside reaches =>
    apply inv.change mine
    · exact ((s.entry e).ip.bmaps_frame fresh (off / BSIZE) k).1
    · exact fun mapped => mapped.written nonzero inside reaches
  | trunc p e mine => exact inv.change mine rfl fun _ => .truncated _
  | iupdate p e here =>
    have ok := inv.entries e
    have mine := ok.working p .dirty here nofun
    have member := ok.holder p mine
    obtain ⟨valid, mapped, typed, -, -⟩ := ok.holds mine (by rw [here]; exact ⟨nofun, nofun⟩)
    refine inv.act_update (before_at here) nofun (List.ne_nil_of_mem member) rfl rfl mapped ?_
    refine ok.section rfl (.inr mine) member (.inl mine) ?_ ?_ ?_ ?_ ?_
    · nofun
    · nofun
    · exact fun _ _ => valid
    · exact fun _ _ => ⟨typed, typed, fun _ => rfl⟩
    · exact fun _ => mapped
  | read p e fresh bn k mine below =>
    have ok := inv.entries e
    have member := ok.holder p mine.2
    obtain ⟨valid, mapped, typed, onDisk, clean⟩ :=
      ok.holds mine.2 (by rw [mine.1]; exact ⟨nofun, nofun⟩)
    rw [DiskInode.bmaps_of_mapped mapped fresh below]
    refine inv.act_quiet (before_idle mine.1) nofun (List.ne_nil_of_mem member) rfl rfl ?_
    rw [update_idle mine.1]
    exact ok
  | iputFrees p e may _ valid free =>
    have ok := inv.entries e
    have used : s.refs e ≠ [] := List.ne_nil_of_mem may.2.1
    have nobody : ∀ w, w ≠ .drop → ∀ q, s.pc q ≠ .at e w :=
      fun w working q there => working (ok.unlocked free there)
    obtain ⟨typed, onDisk, clean⟩ := ok.current used valid (nobody .invalidate nofun)
    refine inv.act_quiet (before_idle may.1) after_at used rfl rfl ?_
    refine ok.section rfl (.inl free) may.2.1 (.inl rfl) ?_ ?_ ?_ ?_ ?_
    · exact fun _ _ _ => rfl
    · nofun
    · exact fun _ _ => valid
    · exact fun _ _ => ⟨typed, onDisk, fun _ => clean (nobody .dirty nofun)⟩
    · exact fun _ => ok.mapped used valid
  | iputDrops p e may =>
    have used : s.refs e ≠ [] := List.ne_nil_of_mem may.2.1
    exact inv.act_quiet (before_idle may.1) nofun used rfl rfl
      ((inv.entries e).put may.1 may.2.1 may.2.2)
  | iputStep p e w t here goes => exact inv.iputStep here goes

end Steps

theorem tableInv_initial {disk : Nat → Nat → DiskInode}
    (mapped : ∀ dev inum, (disk dev inum).Mapped) : TableInv (initial (P := P) disk) where
  entries := fun _ => ⟨rfl, nofun, nofun, nofun, nofun, nofun, nofun⟩
  unique := fun _ _ used => absurd rfl used
  disk := mapped

/-! ### Coherence -/

variable {s : TableSys P} {event : TableEvent P} {p : P}

/-- When `iput` may be called and finds `ref == 1`, nobody holds the sleep lock. -/
theorem TableInv.lock_free (inv : TableInv s) {e : Fin NINODE} (may : s.MayPut p e)
    (last : (s.entry e).ref = 1) : (s.entry e).lock = none := by
  have ok := inv.entries e
  obtain ⟨-, member, spare⟩ := may
  have single : s.refs e = [p] := by
    have count := ok.count
    rw [last] at count
    obtain ⟨q, same⟩ := List.length_eq_one_iff.mp (show (s.refs e).length = 1 by omega)
    rw [same] at member ⊢
    rw [List.mem_singleton.mp member]
  rcases held : (s.entry e).lock with _ | q
  · rfl
  · have holder := ok.holder q held
    rw [single, List.mem_singleton] at holder
    subst holder
    have twice := spare held
    rw [single, List.count_singleton_self] at twice
    omega

structure Coherent (s : TableSys P) : Prop where
  /-- at most one entry in use for each inode -/
  unique : ∀ e e', 0 < (s.entry e).ref → 0 < (s.entry e').ref → (s.entry e).dev = (s.entry e').dev →
    (s.entry e).inum = (s.entry e').inum → e = e'
  /-- an entry in use that is valid and unlocked is a copy of its dinode -/
  clean : ∀ e, 0 < (s.entry e).ref → (s.entry e).valid = true → (s.entry e).lock = none →
    (s.entry e).ip = s.diskOf e
  /-- who uses a locked inode sees its dinode, and nobody can reallocate it -/
  fresh : ∀ p e, s.Using p e → (s.entry e).valid = true ∧ (s.entry e).ip = s.diskOf e ∧
    (s.diskOf e).type ≠ .free
  /-- nor while it has a change to write -/
  changing : ∀ p e, s.pc p = .at e .dirty → (s.entry e).lock = some p ∧ (s.diskOf e).type ≠ .free
  /-- when `ialloc` finds a dinode free, an entry in use for it is not valid, or is being made so by
  the `iput` that freed it -/
  realloc : ∀ e, 0 < (s.entry e).ref → (s.diskOf e).type = .free → (s.entry e).valid = true →
    ∃ p, s.pc p = .at e .invalidate
  /-- `iput` finds `ref == 1` only when the sleep lock is free -/
  lockFree : ∀ p e, s.MayPut p e → (s.entry e).ref = 1 → (s.entry e).lock = none
  /-- so `iput` does not sleep with `itable.lock` held, and `ilock` and `iunlock` find `ref`
  positive -/
  noPanic : ∀ event, s.exec event ≠ some (.error .sleepsLocked) ∧
    s.exec event ≠ some (.error .ilock) ∧
    s.exec event ≠ some (.error .iunlock)

theorem iget_error {dev inum : Nat} {panic : TablePanic}
    (stops : s.iget p dev inum = .error panic) : panic = .igetNoInodes := by
  unfold TableSys.iget at stops
  split at stops
  · cases stops
  · split at stops
    · cases stops
      rfl
    · cases stops

theorem TableInv.panics (inv : TableInv s) {panic : TablePanic}
    (stops : s.exec event = some (.error panic)) :
    panic = .igetNoInodes ∨ panic = .ilockNoType := by
  have referenced : ∀ {p : P} {e : Fin NINODE}, p ∈ s.refs e → ¬ (s.entry e).ref < 1 := by
    intro p e member small
    have positive := (used_iff inv e).mpr (List.ne_nil_of_mem member)
    omega
  unfold exec at stops
  split at stops
  · split at stops
    · exact .inl (iget_error (Option.some.inj stops))
    · cases stops
  · split at stops <;> cases stops
  · split at stops <;> cases stops
  · split at stops
    · rename_i enabled
      rw [if_neg (referenced enabled.2)] at stops
      split at stops <;> cases stops
    · cases stops
  · split at stops
    · split at stops
      · cases stops
      · split at stops
        · cases stops
          exact .inr rfl
        · cases stops
    · cases stops
  · split at stops
    · rename_i p e mine
      rw [if_neg (referenced ((inv.entries e).holder p mine.2))] at stops
      cases stops
    · cases stops
  · split at stops <;> cases stops
  · split at stops <;> cases stops
  · split at stops <;> cases stops
  · split at stops <;> cases stops
  · split at stops <;> cases stops
  · split at stops
    · rename_i may
      split at stops
      · rename_i last
        rw [if_pos (inv.lock_free may last.1)] at stops
        cases stops
      · cases stops
    · cases stops
  · split at stops
    · obtain ⟨t, -, same⟩ := Option.map_eq_some_iff.mp stops
      cases same
    · cases stops
  · split at stops <;> cases stops
  · split at stops
    · exact .inl (iget_error (Option.some.inj stops))
    · cases stops

/-- **The inode table is coherent in every state of every run** from a disk on which every inode
maps the blocks below its size. -/
theorem table_coherent {disk : Nat → Nat → DiskInode} (mapped : ∀ dev inum, (disk dev inum).Mapped)
    {trace : List (TableEvent P)} {s : TableSys P} (run : Run Step (initial disk) trace s) :
    Coherent s := by
  have inv : TableInv s := run.inv (tableInv_initial mapped) TableInv.step
  refine ⟨?_, ?_, ?_, ?_, ?_, fun p e => inv.lock_free, ?_⟩
  · intro e e' used used'
    exact inv.unique e e' ((used_iff inv e).mp used) ((used_iff inv e').mp used')
  · intro e used valid free
    have ok := inv.entries e
    have nobody : ∀ w, w ≠ .drop → ∀ q, s.pc q ≠ .at e w :=
      fun w working q there => working (ok.unlocked free there)
    obtain ⟨-, -, clean⟩ := ok.current ((used_iff inv e).mp used) valid (nobody .invalidate nofun)
    exact clean (nobody .dirty nofun)
  · intro p e mine
    obtain ⟨valid, -, -, onDisk, clean⟩ :=
      (inv.entries e).holds mine.2 (by rw [mine.1]; exact ⟨nofun, nofun⟩)
    exact ⟨valid, clean (by rw [mine.1]; nofun), onDisk⟩
  · intro p e here
    have mine := (inv.entries e).working p .dirty here nofun
    obtain ⟨-, -, -, onDisk, -⟩ := (inv.entries e).holds mine (by rw [here]; exact ⟨nofun, nofun⟩)
    exact ⟨mine, onDisk⟩
  · intro e used free valid
    by_contra nobody
    obtain ⟨-, onDisk, -⟩ := (inv.entries e).current ((used_iff inv e).mp used) valid
      fun p here => nobody ⟨p, here⟩
    exact onDisk free
  · intro event
    refine ⟨fun stops => ?_, fun stops => ?_, fun stops => ?_⟩ <;>
    · rcases inv.panics stops with none | none <;> cases none

def complete (s : TableSys P) : TableEvent P → Option (TableSys P)
  | .write _ _ _ _ _ _ => none
  | event =>
    match s.exec event with
    | some (.ok t) => some t
    | _ => none

theorem Step.of_complete {t : TableSys P} (done : s.complete event = some t) : Step s event t := by
  unfold complete at done
  split at done
  · cases done
  · rename_i other
    split at done
    · rename_i executed
      cases done
      refine ⟨?_, executed⟩
      unfold NonzeroBlocks
      split
      · exact absurd rfl (other _ _ _ _ _ _)
      · trivial
    · cases done

/-- A disk of empty files with one link. -/
def emptyFiles : Nat → Nat → DiskInode := fun _ _ => ⟨.file, 0, 0, 1, 0, fun _ => 0⟩

theorem emptyFiles_mapped (dev inum : Nat) : (emptyFiles dev inum).Mapped :=
  fun _ none => absurd none (Nat.not_lt_zero _)

/-- One process frees inode 7; before it clears `valid` another one allocates the inode again, and
locks it before the first one drops its reference. -/
def freeAndReallocate : List (TableEvent Bool) :=
  [.iget false 1 7, .ilock false 0, .load false, .header false 0 0 0 0, .iupdate false,
    .iunlock false 0,
   .iput false 0, .iputStep false, .iputStep false, .ialloc true 1 7 .dir, .iallocGet true,
   .iputStep false, .ilock true 0, .load true, .iputStep false]

theorem table_coherent_realloc :
    ∃ s : TableSys Bool, Run Step (initial emptyFiles) freeAndReallocate s ∧
    ((s.entry 0).ref, (s.entry 0).valid, (s.entry 0).lock, (s.entry 0).ip.type) =
    (1, true, some true, .dir) ∧
      Coherent s := by
  obtain ⟨s, run, seen⟩ := run_of_observed
    (fun s : TableSys Bool => ((s.entry 0).ref, (s.entry 0).valid, (s.entry 0).lock,
      (s.entry 0).ip.type))
    (show (execAll complete freeAndReallocate (initial emptyFiles)).map _ = some
      (1, true, some true, .dir)
      by decide +kernel)
  have run : Run Step (initial emptyFiles) freeAndReallocate s := run.mono Step.of_complete
  exact ⟨s, run, seen, table_coherent emptyFiles_mapped run⟩

/-- An entry that is given up while valid keeps its fields, and the inode comes back in another one.
-/
def movedInode : List (TableEvent Unit) :=
  [.iget () 1 3, .iget () 1 5, .ilock () 1, .load (), .iunlock () 1, .iput () 1, .iput () 0,
   .iget () 1 5, .ilock () 0, .load (), .header () 0 0 0 2, .iupdate (), .iunlock () 0]

/-- **A free entry is not a copy of its dinode**, though it is valid and unlocked. -/
theorem free_entry_stale : ∃ s : TableSys Unit, Run Step (initial emptyFiles) movedInode s ∧
    (s.entry 1).ref = 0 ∧ (s.entry 1).valid = true ∧ (s.entry 1).lock = none ∧
      (s.entry 1).ip ≠ s.diskOf 1 := by
  obtain ⟨s, run, seen⟩ := run_of_observed
    (fun s : TableSys Unit => ((s.entry 1).ref, (s.entry 1).valid, (s.entry 1).lock,
      (s.entry 1).ip.nlink, (s.diskOf 1).nlink))
    (show (execAll complete movedInode (initial emptyFiles)).map _ = some (0, true, none, 1, 2) by
      decide +kernel)
  have run : Run Step (initial emptyFiles) movedInode s := run.mono Step.of_complete
  simp only [Prod.mk.injEq] at seen
  obtain ⟨unused, valid, free, cached, onDisk⟩ := seen
  refine ⟨s, run, unused, valid, free, fun same => ?_⟩
  rw [same, onDisk] at cached
  exact absurd cached (by decide)

end TableSys

end Xv6
