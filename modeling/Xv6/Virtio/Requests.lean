/-
**The virtio request protocol.**

The invariant that ties the driver's bookkeeping to the device's: the numbers of the requests that
the device has taken, is reporting or has reported are exactly the first `took` ones, each once; the
avail ring holds the heads of the published requests that are not taken yet and the used ring those
of the completions that are not seen yet (`Ring.Holds`); and `b->disk` is set exactly while the
request of a waiting call has not been seen completed. The rings never overflow because the requests
not yet seen completed have different heads among `NUM` descriptors.
-/

import Xv6.Virtio.Chains

set_option linter.unusedSectionVars false

namespace Xv6.VirtioSys

open Lib Function

variable {P B : Type} [DecidableEq P] [DecidableEq B]

/-! ### Who holds the lock -/

/-- `vdisk_lock` is held by the process that is in a critical section. -/
def LockInv (s : VirtioSys P B) : Prop := ∀ p, s.lock = some (.rw p) ↔ (s.pc p).HoldsLock

@[simp] theorem holdsLock_wokenAlloc (pc : RwPc B) : (wokenAlloc pc).HoldsLock ↔ pc.HoldsLock := by
  cases pc <;> exact Iff.rfl

@[simp] theorem holdsLock_wokenKilled (pc : RwPc B) :
    (wokenKilled pc).HoldsLock ↔ pc.HoldsLock := by
  cases pc <;> exact Iff.rfl

@[simp] theorem holdsLock_wokenOn (b : B) (pc : RwPc B) :
    (wokenOn b pc).HoldsLock ↔ pc.HoldsLock := by
  cases pc with
  | wait b' c r =>
    show (if b' = b then RwPc.woken b' c r else .wait b' c r).HoldsLock ↔ _
    split <;> exact Iff.rfl
  | _ => exact Iff.rfl

variable {s t : VirtioSys P B} {e : VirtioEvent P B} {c : Chain} {pc : RwPc B} {r h k : Nat}
  {p q : P} {A : Type}
  {l : List A} {b : B} {a : A}

theorem LockInv.acquire (inv : LockInv s) (free : s.lock = none) (holds : pc.HoldsLock) :
    ∀ q, some (.rw p) = some (LockHolder.rw q) ↔ (update s.pc p pc q).HoldsLock := by
  refine fun q => update_ind ⟨fun _ => holds, fun _ => rfl⟩ fun this => ?_
  rw [← inv q, free]
  refine ⟨fun same => ?_, nofun⟩
  cases same
  exact absurd rfl this

theorem LockInv.release (inv : LockInv s) (mine : (s.pc p).HoldsLock) (leaves : ¬ pc.HoldsLock) :
    ∀ q, none = some (LockHolder.rw q) ↔ (update s.pc p pc q).HoldsLock := by
  refine fun q => ⟨nofun, update_ind (fun holds => absurd holds leaves) fun this holds => ?_⟩
  rw [← inv q, (inv p).mpr mine] at holds
  cases holds
  exact absurd rfl this

theorem LockInv.goto (inv : LockInv s) (same : pc.HoldsLock ↔ (s.pc p).HoldsLock) :
    ∀ q, s.lock = some (.rw q) ↔ (update s.pc p pc q).HoldsLock := by
  refine fun q => update_ind ?_ fun _ => inv q
  rw [same]
  exact inv p

theorem LockInv.congr (inv : LockInv s) (lock : t.lock = s.lock)
    (pcs : ∀ p, (t.pc p).HoldsLock ↔ (s.pc p).HoldsLock) : LockInv t := by
  intro p
  rw [lock, pcs]
  exact inv p

theorem LockInv.change (inv : LockInv s) (before : ∀ p, s.lock ≠ some (.rw p))
    (after : ∀ p, t.lock ≠ some (.rw p)) (pcs : t.pc = s.pc) : LockInv t := by
  intro p
  rw [pcs, ← inv p]
  exact ⟨fun mine => absurd mine (after p), fun mine => absurd mine (before p)⟩

theorem AllocFailed.lockInv (failed : AllocFailed s t) (inv : LockInv s) : LockInv t := by
  apply inv.congr
  · rw [failed.same]
  · intro p
    rcases failed.moved p with same | woken
    · rw [same]
    · rw [woken]
      exact holdsLock_wokenAlloc _

theorem LockInv.step (inv : LockInv s) (chains : ChainInv s) (does : Does s e t) : LockInv t := by
  cases does with
  | start p b write blockno _ free | relockAlloc p b write blockno _ free
  | relockTest p b c r _ free =>
    exact inv.acquire free trivial
  | allocFails p b write blockno u here failed =>
    have kept := allocFailed_of_alloc3Desc failed
    have held : (u.pc p).HoldsLock := by
      rcases kept.moved p with same | woken
      · rw [same, here]
        trivial
      · rw [woken, here]
        trivial
    exact (kept.lockInv inv).release held id
  | allocates p b write blockno u c here got =>
    obtain ⟨rfl, -, -⟩ := mark_of_alloc3Desc got
    refine inv.goto (p := p) ?_
    rw [here]
    exact Iff.rfl
  | publish p b c here =>
    refine inv.goto (p := p) ?_
    rw [here]
    exact Iff.rfl
  | waits p b c r here _ =>
    refine inv.release (p := p) ?_ id
    rw [here]
    trivial
  | returns p b c r u here _ freed =>
    rw [(chains.owns p b c (congrArg Hand.uses (hand_eq here))).freeChain (by decide)] at freed
    cases freed
    have after : LockInv ((s.clearInfo c.head).freedChain c) := inv.congr rfl
      fun q => holdsLock_wokenAlloc (s.pc q)
    refine after.release (p := p) ?_ id
    have mine : (s.pc p).HoldsLock := by
      rw [here]
      trivial
    exact (holdsLock_wokenAlloc (s.pc p)).mpr mine
  | intrStart free => exact inv.change (fun p mine => by rw [free] at mine; cases mine) nofun rfl
  | intrEnds held _ => exact inv.change (fun p mine => by rw [held] at mine; cases mine) nofun rfl
  | intrClears b _ _ _ _ => exact inv.congr rfl fun q => holdsLock_wokenOn b (s.pc q)
  | devTake _ | devPublish _ _ => exact inv.congr rfl fun _ => Iff.rfl
  | devWrite k h _ _ =>
    obtain ⟨info, same, -⟩ := s.writeStatus_frame h
    rw [same]
    exact inv.congr rfl fun _ => Iff.rfl
  | kill p => exact inv.goto (holdsLock_wokenKilled (s.pc p))

/-! ### Waiting for descriptors -/

/-- A call sleeps for descriptors only while some descriptor is in use. -/
def SleepInv (s : VirtioSys P B) : Prop :=
  ∀ p b write blockno, s.pc p = .allocSleep b write blockno → ∃ i < NUM, s.free i = false

theorem SleepInv.congr (inv : SleepInv s)
    (sleeps : ∀ p b write blockno, t.pc p = .allocSleep b write blockno →
      s.pc p = .allocSleep b write blockno)
    (free : ∀ i, s.free i = false → t.free i = false) : SleepInv t := by
  intro p b write blockno asleep
  obtain ⟨i, inside, used⟩ := inv p b write blockno (sleeps p b write blockno asleep)
  exact ⟨i, inside, free i used⟩

theorem ne_allocSleep_wokenAlloc (pc : RwPc B) (b : B) (write : Bool) (blockno : Nat) :
    wokenAlloc pc ≠ .allocSleep b write blockno := by
  cases pc <;> nofun

theorem sleeps_update (awake : ∀ b write blockno, pc ≠ .allocSleep b write blockno) (q : P) (b : B)
    (write : Bool) (blockno : Nat) (asleep : update s.pc p pc q = .allocSleep b write blockno) :
    s.pc q = .allocSleep b write blockno :=
  (of_update_eq asleep (awake b write blockno)).2

theorem SleepInv.step (inv : SleepInv s) (chains : ChainInv s) (does : Does s e t) :
    SleepInv t := by
  cases does with
  | start p b write blockno | publish p b c here | waits p b c r here
  | relockAlloc p b write blockno
  | relockTest p b c r => exact inv.congr (sleeps_update fun _ _ _ => nofun) fun _ used => used
  | allocFails p b write blockno u here failed =>
    have kept := allocFailed_of_alloc3Desc failed
    obtain ⟨i, inside, used⟩ := kept.inUse
    have free : u.free = s.free := by rw [kept.same]
    intro _ _ _ _ _
    refine ⟨i, inside, ?_⟩
    show u.free i = false
    rw [free]
    exact used
  | allocates p b write blockno u c here got =>
    obtain ⟨rfl, -, -⟩ := mark_of_alloc3Desc got
    refine inv.congr (sleeps_update fun _ _ _ => nofun) fun i used => ?_
    show (if i ∈ c.descs then false else s.free i) = false
    rw [used, ite_self]
  | returns p b c r u here _ freed =>
    rw [(chains.owns p b c (congrArg Hand.uses (hand_eq here))).freeChain (by decide)] at freed
    cases freed
    -- freeing the chain woke every sleeper
    intro q b' write blockno asleep
    have awake : ∀ b write blockno, (RwPc.idle : RwPc B) ≠ .allocSleep b write blockno :=
      fun _ _ _ => nofun
    have before :=
      sleeps_update (s := (s.clearInfo c.head).freedChain c)
      (p := p) awake q b' write blockno asleep
    exact absurd before (ne_allocSleep_wokenAlloc (s.pc q) b' write blockno)
  | intrStart _ | intrEnds _ _ | devTake _ | devPublish _ _ =>
    exact inv.congr (fun _ _ _ _ asleep => asleep) fun _ used => used
  | intrClears b _ _ _ _ =>
    refine inv.congr (fun q b' write blockno asleep => ?_) fun _ used => used
    have asleep : wokenOn b (s.pc q) = .allocSleep b' write blockno := asleep
    generalize s.pc q = pc at asleep ⊢
    cases pc with
    | wait b'' c r =>
      simp only [wokenOn] at asleep
      split at asleep <;> cases asleep
    | _ => exact asleep
  | devWrite k h _ _ =>
    obtain ⟨info, same, -⟩ := s.writeStatus_frame h
    rw [same]
    exact inv.congr (fun _ _ _ _ asleep => asleep) fun _ used => used
  | kill p =>
    refine inv.congr (sleeps_update fun b write blockno => ?_) fun _ used => used
    cases s.pc p <;> nofun

/-! ### Requests -/

/-- The requests that the device knows of. -/
def known (s : VirtioSys P B) : List (Nat × Nat) := s.taken ++ s.reporting.toList ++ s.reported

/-- The numbers of the requests that `virtio_disk_intr` has seen completed. -/
def done (s : VirtioSys P B) : List Nat := (s.reported.take s.cleared.length).map Prod.fst

/-- The completions that `virtio_disk_intr` has not seen yet. -/
def unseen (s : VirtioSys P B) : List (Nat × Nat) := s.reported.drop s.cleared.length

/-- What the device has been given and has given back. -/
structure DeviceInv (s : VirtioSys P B) : Prop where
  took : s.took ≤ s.issued.length
  once : (s.known.map Prod.fst).Perm (List.range s.took)
  heads : ∀ e ∈ s.known, s.issued[e.1]?.map Prod.fst = some e.2
  seen : s.cleared.length ≤ s.reported.length
  clears : ∀ (j : Nat) (b : B), s.cleared[j]? = some b → ∃ k h : Nat, s.reported[j]? = some (k, h) ∧
    s.issued[k]? = some (h, b)

/-- The driver's side of the requests, and the rings. -/
structure RequestInv (s : VirtioSys P B) : Prop where
  staged : ∀ p b c, s.hand p = .chain b c → s.disk b = true ∧
    s.availRing (Ring.slot NUM s.availIdx) = c.head
  awaits : ∀ p b c r, s.hand p = .request b c r →
    s.issued[r]? = some (c.head, b) ∧ (s.disk b = true ↔ r ∉ s.done)
  pending : ∀ r < s.issued.length, r ∉ s.done → ∃ p b c, s.hand p = .request b c r
  avail : Ring.Holds s.availRing s.devIdx s.availIdx ((s.issued.drop s.took).map Prod.fst)
  used : Ring.Holds s.usedRing s.seenIdx s.usedIdx (s.unseen.map Prod.snd)
  reporting : ∀ e, s.reporting = some e → s.usedRing (Ring.slot NUM s.usedIdx) = e.2
  status : ∀ e ∈ s.reporting.toList ++ s.unseen, (s.info e.2).status = 0

structure VirtioInv (s : VirtioSys P B) : Prop where
  lock : LockInv s
  chains : ChainInv s
  sleep : SleepInv s
  device : DeviceInv s
  requests : RequestInv s

theorem wraps : NUM ∣ 2 ^ 16 := by decide

theorem small : NUM < 2 ^ 16 := by decide

theorem DeviceInv.nodup (inv : DeviceInv s) :
    ((s.taken ++ s.reporting.toList ++ s.unseen).map Prod.fst ++ s.done).Nodup := by
  have all : (s.known.map Prod.fst).Nodup := inv.once.nodup_iff.mpr List.nodup_range
  have split : s.known.map Prod.fst =
      (s.taken ++ s.reporting.toList).map Prod.fst ++ (s.done ++ s.unseen.map Prod.fst) := by
    rw [done, unseen, ← List.map_append, List.take_append_drop, known, List.map_append]
  rw [split] at all
  rw [List.map_append, List.append_assoc]
  exact (List.Perm.append_left _ List.perm_append_comm).nodup_iff.mp all

theorem DeviceInv.lt_took (inv : DeviceInv s) {e : Nat × Nat} (known : e ∈ s.known) :
    e.1 < s.took :=
  List.mem_range.mp (inv.once.mem_iff.mp (List.mem_map_of_mem known))

theorem DeviceInv.done_lt (inv : DeviceInv s) (done : r ∈ s.done) : r < s.took := by
  obtain ⟨e, member, rfl⟩ := List.mem_map.mp done
  exact inv.lt_took (List.mem_append_right _ (List.mem_of_mem_take member))

theorem DeviceInv.not_done (inv : DeviceInv s) {e : Nat × Nat}
    (member : e ∈ s.taken ++ s.reporting.toList ++ s.unseen) : e.1 ∉ s.done :=
  fun done => (List.nodup_append.mp inv.nodup).2.2 _ (List.mem_map_of_mem member) _ done rfl

theorem mem_known {e : Nat × Nat} (member : e ∈ s.taken ++ s.reporting.toList ++ s.unseen) :
    e ∈ s.known := by
  rcases List.mem_append.mp member with early | late
  · exact List.mem_append_left _ early
  · exact List.mem_append_right _ (List.mem_of_mem_drop late)

theorem VirtioInv.caller (inv : VirtioInv s) (issued : r < s.issued.length) (open' : r ∉ s.done) :
    ∃ p b c, s.hand p = .request b c r ∧ s.issued[r]? = some (c.head, b) ∧ s.disk b = true ∧
      s.Owns b c := by
  obtain ⟨p, b, c, waits⟩ := inv.requests.pending r issued open'
  obtain ⟨entry, flag⟩ := inv.requests.awaits p b c r waits
  refine ⟨p, b, c, waits, entry, flag.mpr open', inv.chains.owns p b c ?_⟩
  rw [waits]
  rfl

theorem VirtioInv.caller_of_known (inv : VirtioInv s) {e : Nat × Nat}
    (member : e ∈ s.taken ++ s.reporting.toList ++ s.unseen) :
    ∃ p b c, s.hand p = .request b c e.1 ∧
      s.issued[e.1]? = some (e.2, b) ∧ c.head = e.2 ∧ s.disk b = true ∧ s.Owns b c := by
  have known := mem_known member
  have issued : e.1 < s.issued.length := (inv.device.lt_took known).trans_le inv.device.took
  obtain ⟨p, b, c, waits, entry, busy, owns⟩ := inv.caller issued (inv.device.not_done member)
  have head : c.head = e.2 := by
    have heads := inv.device.heads e known
    rw [entry] at heads
    exact Option.some.inj heads
  rw [head] at entry
  exact ⟨p, b, c, waits, entry, head, busy, owns⟩

theorem VirtioInv.heads_injective (inv : VirtioInv s) {r' : Nat} {e e' : Nat × B}
    (first : s.issued[r]? = some e) (second : s.issued[r']? = some e') (open₁ : r ∉ s.done)
    (open₂ : r' ∉ s.done) (same : e.1 = e'.1) : r = r' := by
  obtain ⟨p, b, c, waits, entry, -⟩ := inv.caller (List.getElem?_eq_some_iff.mp first).1 open₁
  obtain ⟨p', b', c', waits', entry', -⟩ := inv.caller (List.getElem?_eq_some_iff.mp second).1 open₂
  rw [first] at entry
  rw [second] at entry'
  cases entry
  cases entry'
  by_cases this : p = p'
  · rw [this, waits'] at waits
    cases waits
    rfl
  · have uses : (s.hand p).uses = some (b, c) := congrArg Hand.uses waits
    have uses' : (s.hand p').uses = some (b', c') := congrArg Hand.uses waits'
    have shared : c.head ∈ c'.descs := by
      rw [show c.head = c'.head from same]
      exact Chain.head_mem c'
    exact (inv.chains.disjoint p p' b c b' c' this uses uses' (Chain.head_mem c) shared).elim

/-- **Rings do not overflow**: requests that are not seen completed are fewer than `NUM` when a
descriptor is none of their heads. -/
theorem VirtioInv.few (inv : VirtioInv s) {requests : List Nat} (distinct : requests.Nodup)
    (issued : ∀ r ∈ requests, r < s.issued.length) (open' : ∀ r ∈ requests, r ∉ s.done)
    (inside : h < NUM) (other : ∀ r ∈ requests, ∀ e, s.issued[r]? = some e → e.1 ≠ h) :
    requests.length < NUM := by
  have entry : ∀ r ∈ requests, ∃ e, s.issued[r]? = some e := fun r member =>
    ⟨_, List.getElem?_eq_getElem (issued r member)⟩
  have heads : (requests.map fun r => s.issued[r]?.map Prod.fst).Nodup := by
    refine List.Nodup.map_on ?_ distinct
    intro r member r' member' same
    obtain ⟨e, found⟩ := entry r member
    obtain ⟨e', found'⟩ := entry r' member'
    rw [found, found'] at same
    exact inv.heads_injective found found' (open' r member) (open' r' member')
      (Option.some.inj same)
  have fresh : some h ∉ requests.map fun r => s.issued[r]?.map Prod.fst := by
    intro member
    obtain ⟨r, inList, same⟩ := List.mem_map.mp member
    obtain ⟨e, found⟩ := entry r inList
    rw [found] at same
    exact other r inList e found (Option.some.inj same)
  have inRange : (some h :: requests.map fun r => s.issued[r]?.map Prod.fst) ⊆
    (List.range NUM).map some := by
    intro x member
    rcases List.mem_cons.mp member with here | there
    · rw [here]
      exact List.mem_map_of_mem (List.mem_range.mpr inside)
    · obtain ⟨r, inList, same⟩ := List.mem_map.mp there
      obtain ⟨p, b, c, -, found, -, owns⟩ := inv.caller (issued r inList) (open' r inList)
      rw [found] at same
      rw [← same]
      exact List.mem_map_of_mem (List.mem_range.mpr (owns.inside _ (Chain.head_mem c)))
  have length := (List.subperm_of_subset (List.nodup_cons.mpr ⟨fresh, heads⟩) inRange).length_le
  rw [List.length_cons, List.length_map, List.length_map, List.length_range] at length
  exact length

/-- The avail ring has room when some descriptor is not the head of a published request. -/
theorem VirtioInv.avail_room (inv : VirtioInv s) (inside : h < NUM)
    (other : ∀ r, r ∉ s.done → ∀ e, s.issued[r]? = some e → e.1 ≠ h) :
    ((s.issued.drop s.took).map Prod.fst).length < NUM := by
  have late : ∀ r ∈ List.range' s.took (s.issued.length - s.took), s.took ≤ r ∧
    r < s.issued.length := by
    intro r member
    have took := inv.device.took
    rw [List.mem_range'_1] at member
    omega
  have open' : ∀ r ∈ List.range' s.took (s.issued.length - s.took), r ∉ s.done :=
    fun r member done =>
    Nat.not_lt.mpr (late r member).1 (inv.device.done_lt done)
  have few := inv.few List.nodup_range' (fun r member => (late r member).2) open' inside
    fun r member => other r (open' r member)
  rw [List.length_range'] at few
  rwa [List.length_map, List.length_drop]

theorem VirtioInv.used_room (inv : VirtioInv s) {e : Nat × Nat}
    (member : e ∈ s.taken ++ s.reporting.toList) : (s.unseen.map Prod.snd).length < NUM := by
  have nodup := (List.nodup_append.mp inv.device.nodup).1
  rw [List.map_append] at nodup
  obtain ⟨-, unseen, apart⟩ := List.nodup_append.mp nodup
  obtain ⟨p, b, c, -, entry, head, -, owns⟩ :=
    inv.caller_of_known (List.mem_append_left s.unseen member)
  have inside : e.2 < NUM := by
    rw [← head]
    exact owns.inside _ (Chain.head_mem c)
  have open' : ∀ r ∈ s.unseen.map Prod.fst, r ∉ s.done := by
    intro r inside
    obtain ⟨e', there, rfl⟩ := List.mem_map.mp inside
    exact inv.device.not_done (List.mem_append_right _ there)
  have few := inv.few unseen ?_ open' inside ?_
  · rwa [List.length_map] at few ⊢
  · intro r inside
    obtain ⟨e', there, rfl⟩ := List.mem_map.mp inside
    exact (inv.device.lt_took (mem_known (List.mem_append_right _ there))).trans_le inv.device.took
  · intro r inside e' found same
    have equal := inv.heads_injective found entry (open' r inside)
      (inv.device.not_done (List.mem_append_left _ member)) same
    exact apart _ (List.mem_map_of_mem member) _ inside equal.symm

/-! ### The steps -/

theorem RequestInv.congr (inv : RequestInv s)
    (chain : ∀ p b c, t.hand p = .chain b c ↔ s.hand p = .chain b c)
    (request : ∀ p b c r, t.hand p = .request b c r ↔ s.hand p = .request b c r)
    (same :
      t = { s with desc := t.desc, free := t.free, lock := t.lock, owner := t.owner, pc := t.pc }) :
    RequestInv t := by
  have kept :
    RequestInv
    { s with desc := t.desc, free := t.free, lock := t.lock, owner := t.owner, pc := t.pc } := by
    refine ⟨?_, ?_, ?_, inv.avail, inv.used, inv.reporting, inv.status⟩
    · intro p b c holds
      exact inv.staged p b c ((chain p b c).mp holds)
    · intro p b c r holds
      exact inv.awaits p b c r ((request p b c r).mp holds)
    · intro r issued open'
      obtain ⟨p, b, c, holds⟩ := inv.pending r issued open'
      exact ⟨p, b, c, (request p b c r).mpr holds⟩
  rw [same]
  exact kept

theorem RequestInv.quiet (inv : RequestInv s) (hands : t.hand = s.hand)
    (same :
      t = { s with desc := t.desc, free := t.free, lock := t.lock, owner := t.owner, pc := t.pc }) :
    RequestInv t :=
  inv.congr (fun p b c => by rw [hands]) (fun p b c r => by rw [hands]) same

/-- Who has made a chain and not yet published it holds the lock. -/
theorem holdsLock_of_chain (chain : s.hand q = .chain b c) : (s.pc q).HoldsLock := by
  generalize here : s.pc q = pc
  rw [hand_eq here] at chain
  cases pc <;> cases chain
  trivial

theorem LockInv.publisher (inv : LockInv s) (mine : (s.pc p).HoldsLock)
    (chain : s.hand q = .chain b c) : q = p := by
  have held := holdsLock_of_chain chain
  rw [← inv q, (inv p).mpr mine] at held
  cases held
  rfl

theorem LockInv.no_publisher (inv : LockInv s) (handler : s.lock = some .intr)
    (chain : s.hand q = .chain b c) : False := by
  have held := holdsLock_of_chain chain
  rw [← inv q, handler] at held
  cases held

theorem VirtioInv.allocates (inv : VirtioInv s) {write : Bool} {blockno : Nat}
    (here : s.pc p = .alloc b write blockno) (fresh : ∀ i ∈ c.descs, i < NUM ∧ s.free i = true) :
    let t := ((s.mark c.descs).format c b write blockno).goto p (.publish b c)
    RequestInv t := by
  intro t
  have hands : t.hand = update s.hand p (.chain b c) := hand_goto _ _ _
  have mine : s.hand p = .buffer b := hand_eq here
  have held : (s.pc p).HoldsLock := by
    rw [here]
    trivial
  -- the new head is no request's: those heads are in use
  have newHead : ∀ r, r ∉ s.done → ∀ e, s.issued[r]? = some e → e.1 ≠ c.head := by
    intro r open' e found same
    obtain ⟨p', b', c', -, entry, -, owns⟩ :=
      inv.caller (List.getElem?_eq_some_iff.mp found).1 open'
    rw [found] at entry
    cases entry
    have used := owns.used _ (Chain.head_mem c')
    rw [show c'.head = c.head from same, (fresh _ (Chain.head_mem c)).2] at used
    cases used
  have room := inv.avail_room (fresh _ (Chain.head_mem c)).1 newHead
  refine ⟨?_, ?_, ?_, ?_, inv.requests.used, inv.requests.reporting, ?_⟩
  · intro q b' c'
    rw [hands]
    refine update_ind (fun chain => ?_)
      fun this chain => absurd (inv.lock.publisher held chain) this
    cases chain
    exact ⟨update_self .., update_self ..⟩
  · intro q b' c' r waits
    rw [hands] at waits
    obtain ⟨other, waits⟩ := of_update_eq waits nofun
    have buffer : b' ≠ b := fun same => by
      refine other (inv.chains.same_call (b := b) ?_ ?_)
      · rw [waits, ← same]
        rfl
      · rw [mine]
        rfl
    obtain ⟨entry, flag⟩ := inv.requests.awaits q b' c' r waits
    refine ⟨entry, ?_⟩
    show update s.disk b true b' = true ↔ _
    rw [update_of_ne buffer]
    exact flag
  · intro r issued open'
    obtain ⟨q, b', c', waits⟩ := inv.requests.pending r issued open'
    refine ⟨q, b', c', ?_⟩
    have other : q ≠ p := fun this => by
      rw [this, mine] at waits
      cases waits
    rwa [hands, update_of_ne other]
  · exact inv.requests.avail.stage wraps room c.head
  · intro e member
    have status := inv.requests.status e member
    have inDevice : e ∈ s.taken ++ s.reporting.toList ++ s.unseen := by
      rw [List.append_assoc]
      exact List.mem_append_right _ member
    obtain ⟨p', b', c', -, entry, -⟩ := inv.caller_of_known inDevice
    have other := newHead e.1 (inv.device.not_done inDevice) _ entry
    show (update s.info c.head (OpInfo.mk (some b) 0xff) e.2).status = 0
    rw [update_of_ne other]
    exact status

theorem getElem?_append_of_some (rest : List A) (found : l[k]? = some a) :
    (l ++ rest)[k]? = some a := by
  rw [List.getElem?_append_left (List.getElem?_eq_some_iff.mp found).1]
  exact found

theorem VirtioInv.publishes (inv : VirtioInv s) (here : s.pc p = .publish b c) :
    let t := { s.goto p (.test b c s.issued.length) with
      availIdx := s.availIdx + 1, issued := s.issued ++ [(c.head, b)] }
    DeviceInv t ∧ RequestInv t := by
  intro t
  have hands : t.hand = update s.hand p (.request b c s.issued.length) := hand_goto s p _
  have mine : s.hand p = .chain b c := hand_eq here
  have held : (s.pc p).HoldsLock := by
    rw [here]
    trivial
  obtain ⟨busy, slot⟩ := inv.requests.staged p b c mine
  have owns := inv.chains.owns p b c (congrArg Hand.uses mine)
  have took := inv.device.took
  have newOpen : s.issued.length ∉ s.done :=
    fun done => Nat.not_lt.mpr took (inv.device.done_lt done)
  -- the head is in this call's chain, so it is no other request's
  have newHead : ∀ r, r ∉ s.done → ∀ e, s.issued[r]? = some e → e.1 ≠ c.head := by
    intro r open' e found same
    obtain ⟨q, b', c', waits, entry, -⟩ := inv.caller (List.getElem?_eq_some_iff.mp found).1 open'
    rw [found] at entry
    cases entry
    have other : q ≠ p := fun this => by
      rw [this, mine] at waits
      cases waits
    have shared : c'.head ∈ c.descs := by
      rw [show c'.head = c.head from same]
      exact Chain.head_mem c
    exact inv.chains.disjoint q p b' c' b c other (congrArg Hand.uses waits)
      (congrArg Hand.uses mine)
      (Chain.head_mem c') shared
  have room := inv.avail_room (owns.inside _ (Chain.head_mem c)) newHead
  refine ⟨⟨?_, inv.device.once, ?_, inv.device.seen, ?_⟩, ?_, ?_, ?_, ?_, inv.requests.used,
    inv.requests.reporting, inv.requests.status⟩
  · show s.took ≤ (s.issued ++ _).length
    rw [List.length_append]
    omega
  · intro e member
    obtain ⟨entry, found, head⟩ := Option.map_eq_some_iff.mp (inv.device.heads e member)
    exact Option.map_eq_some_iff.mpr ⟨entry, getElem?_append_of_some _ found, head⟩
  · intro j b' cleared
    obtain ⟨k, h, reported, entry⟩ := inv.device.clears j b' cleared
    exact ⟨k, h, reported, getElem?_append_of_some _ entry⟩
  · intro q b' c' chain
    rw [hands] at chain
    obtain ⟨other, chain⟩ := of_update_eq chain nofun
    exact absurd (inv.lock.publisher held chain) other
  · intro q b' c' r
    rw [hands]
    refine update_ind (fun waits => ?_) fun _ waits => ?_
    · cases waits
      refine ⟨?_, fun _ => newOpen, fun _ => busy⟩
      show (s.issued ++ [(c.head, b)])[s.issued.length]? = _
      rw [List.getElem?_concat_length]
    · obtain ⟨entry, flag⟩ := inv.requests.awaits q b' c' r waits
      exact ⟨getElem?_append_of_some _ entry, flag⟩
  · intro r issued open'
    rw [hands]
    have issued : r < s.issued.length + 1 := by simpa [t] using issued
    rcases Nat.lt_succ_iff_lt_or_eq.mp issued with old | new
    · obtain ⟨q, b', c', waits⟩ := inv.requests.pending r old open'
      refine ⟨q, b', c', ?_⟩
      have other : q ≠ p := fun this => by
        rw [this, mine] at waits
        cases waits
      rwa [update_of_ne other]
    · refine ⟨p, b, c, ?_⟩
      rw [update_self, new]
  · show Ring.Holds s.availRing s.devIdx (s.availIdx + 1)
      (((s.issued ++ [(c.head, b)]).drop s.took).map Prod.fst)
    rw [List.drop_append_of_le_length took, List.map_append]
    exact inv.requests.avail.publish room slot

theorem VirtioInv.returns (inv : VirtioInv s) (here : s.pc p = .test b c r)
    (clear : s.disk b = false) :
    let t := { ((s.clearInfo c.head).freedChain c).release p .idle with
      owner := update s.owner b none }
    RequestInv t := by
  intro t
  have hands : t.hand = update s.hand p .nothing := by
    have moved := hand_goto ((s.clearInfo c.head).freedChain c) p .idle
    rw [hand_freedChain] at moved
    exact moved
  have mine : s.hand p = .request b c r := hand_eq here
  have seen : r ∈ s.done := by
    have flag := (inv.requests.awaits p b c r mine).2
    by_contra open'
    rw [flag.mpr open'] at clear
    cases clear
  refine ⟨?_, ?_, ?_, inv.requests.avail, inv.requests.used, inv.requests.reporting, ?_⟩
  · intro q b' c' chain
    rw [hands] at chain
    exact inv.requests.staged q b' c' (of_update_eq chain nofun).2
  · intro q b' c' r' waits
    rw [hands] at waits
    exact inv.requests.awaits q b' c' r' (of_update_eq waits nofun).2
  · intro r' issued open'
    obtain ⟨q, b', c', waits⟩ := inv.requests.pending r' issued open'
    refine ⟨q, b', c', ?_⟩
    have other : q ≠ p := fun this => by
      rw [this, mine] at waits
      cases waits
      exact open' seen
    rwa [hands, update_of_ne other]
  · intro e member
    have status := inv.requests.status e member
    show (update s.info c.head { s.info c.head with b := none } e.2).status = 0
    rw [← status]
    exact update_ind rfl fun _ => rfl

theorem VirtioInv.next_unseen (inv : VirtioInv s) (more : s.seenIdx ≠ s.usedIdx) :
    ∃ e rest, s.unseen = e :: rest ∧ s.usedRing (Ring.slot NUM s.seenIdx) = e.2 ∧
      Ring.Holds s.usedRing (s.seenIdx + 1) s.usedIdx (rest.map Prod.snd) := by
  have nonempty : s.unseen.map Prod.snd ≠ [] :=
    fun empty => more ((inv.requests.used.empty_iff small).mpr empty)
  rcases entries : s.unseen with _ | ⟨e, rest⟩
  · rw [entries] at nonempty
    exact absurd rfl nonempty
  · have used := inv.requests.used
    rw [entries, List.map_cons] at used
    exact ⟨e, rest, rfl, used.take⟩

theorem drop_succ_of_drop {rest : List A} {n : Nat} (front : l.drop n = a :: rest) :
    l[n]? = some a ∧ l.drop (n + 1) = rest ∧ l.take (n + 1) = l.take n ++ [a] ∧ n < l.length := by
  have inside : n < l.length := by
    by_contra outside
    rw [List.drop_eq_nil_of_le (Nat.not_lt.mp outside)] at front
    cases front
  have here : l[n] = a ∧ l.drop (n + 1) = rest := by
    rw [List.drop_eq_getElem_cons inside] at front
    exact List.cons.inj front
  refine ⟨?_, here.2, ?_, inside⟩
  · rw [List.getElem?_eq_getElem inside, here.1]
  · rw [List.take_succ_eq_append_getElem inside, here.1]

/-- **A completion clears the flag of the buffer whose request it is.** -/
theorem VirtioInv.intrClears (inv : VirtioInv s) (handler : s.lock = some .intr)
    (more : s.seenIdx ≠ s.usedIdx)
    (buf : (s.info (s.usedRing (Ring.slot NUM s.seenIdx))).b = some b) :
    let t := { s with
      disk := update s.disk b false, pc := fun p => wokenOn b (s.pc p)
      seenIdx := s.seenIdx + 1, cleared := s.cleared ++ [b] }
    DeviceInv t ∧ RequestInv t := by
  intro t
  obtain ⟨e, rest, entries, slot, used⟩ := inv.next_unseen more
  obtain ⟨here, dropped, taken, inside⟩ := drop_succ_of_drop entries
  have member : e ∈ s.unseen := by
    rw [entries]
    exact List.mem_cons_self
  obtain ⟨p, b', c, waits, entry, head, -, owns⟩ :=
    inv.caller_of_known (List.mem_append_right _ member)
  obtain rfl : b = b' := by
    rw [slot, ← head, owns.buffer] at buf
    exact (Option.some.inj buf).symm
  have hands : t.hand = s.hand := by
    funext q
    exact hand_wokenOn b (s.pc q)
  have length : (s.cleared ++ [b]).length = s.cleared.length + 1 := by simp
  have unseen : t.unseen = rest := by
    show s.reported.drop (s.cleared ++ [b]).length = rest
    rw [length]
    exact dropped
  have done : t.done = s.done ++ [e.1] := by
    show (s.reported.take (s.cleared ++ [b]).length).map Prod.fst = _
    rw [length, taken, List.map_append]
    rfl
  refine ⟨⟨inv.device.took, inv.device.once, inv.device.heads, ?_, ?_⟩, ?_, ?_, ?_,
    inv.requests.avail, ?_, inv.requests.reporting, ?_⟩
  · show (s.cleared ++ [b]).length ≤ s.reported.length
    rw [length]
    exact inside
  · intro j b₁ cleared
    rcases Nat.lt_or_ge j s.cleared.length with old | new
    · rw [List.getElem?_append_left old] at cleared
      exact inv.device.clears j b₁ cleared
    · have last : j = s.cleared.length := by
        have bound : j < (s.cleared ++ [b]).length := (List.getElem?_eq_some_iff.mp cleared).1
        omega
      subst last
      rw [List.getElem?_concat_length] at cleared
      cases cleared
      exact ⟨e.1, e.2, here, entry⟩
  · intro q b₁ c₁ chain
    rw [hands] at chain
    exact (inv.lock.no_publisher handler chain).elim
  · intro q b₁ c₁ r chain
    rw [hands] at chain
    obtain ⟨issued, flag⟩ := inv.requests.awaits q b₁ c₁ r chain
    refine ⟨issued, ?_⟩
    rw [done, List.mem_append, List.mem_singleton]
    show update s.disk b false b₁ = true ↔ _
    by_cases this : b₁ = b
    · subst this
      have same : q = p := by
        refine inv.chains.same_call (b := b₁) ?_ ?_
        · rw [chain]
          rfl
        · rw [waits]
          rfl
      rw [same, waits] at chain
      cases chain
      rw [update_self]
      exact ⟨nofun, fun open' => absurd (Or.inr rfl) open'⟩
    · have other : r ≠ e.1 := fun same => by
        rw [same, entry] at issued
        exact this (Prod.mk.inj (Option.some.inj issued)).2.symm
      rw [update_of_ne this, flag]
      simp only [other, or_false]
  · intro r issued open'
    rw [done] at open'
    rw [hands]
    exact inv.requests.pending r issued fun old => open' (List.mem_append_left _ old)
  · rw [unseen]
    exact used
  · intro e' pending
    rw [unseen] at pending
    apply inv.requests.status e'
    rw [entries]
    rcases List.mem_append.mp pending with early | late
    · exact List.mem_append_left _ early
    · exact List.mem_append_right _ (List.mem_cons_of_mem _ late)

theorem VirtioInv.devTake (inv : VirtioInv s) (more : s.devIdx ≠ s.availIdx) :
    let t := { s with
      devIdx := s.devIdx + 1, taken := s.taken ++ [(s.took, s.availRing (Ring.slot NUM s.devIdx))]
      took := s.took + 1 }
    DeviceInv t ∧ RequestInv t := by
  intro t
  have nonempty : (s.issued.drop s.took).map Prod.fst ≠ [] := fun empty =>
    more ((inv.requests.avail.empty_iff small).mpr empty)
  rcases entries : s.issued.drop s.took with _ | ⟨entry, rest⟩
  · rw [entries] at nonempty
    exact absurd rfl nonempty
  obtain ⟨here, dropped, -, inside⟩ := drop_succ_of_drop entries
  have avail := inv.requests.avail
  rw [entries, List.map_cons] at avail
  obtain ⟨slot, avail⟩ := avail.take
  have known : t.known.Perm ((s.took, entry.1) :: s.known) := by
    show (s.taken ++ [(s.took, s.availRing _)] ++ s.reporting.toList ++ s.reported).Perm _
    rw [slot, List.append_assoc, List.append_assoc, List.singleton_append]
    refine List.perm_middle.trans (List.Perm.cons _ ?_)
    rw [VirtioSys.known, List.append_assoc]
  refine ⟨⟨inside, ?_, ?_, inv.device.seen, inv.device.clears⟩, inv.requests.staged,
    inv.requests.awaits,
    inv.requests.pending, ?_, inv.requests.used, inv.requests.reporting, inv.requests.status⟩
  · refine (known.map Prod.fst).trans ?_
    rw [List.map_cons, List.range_succ]
    exact (List.Perm.cons _ inv.device.once).trans (List.perm_append_singleton _ _).symm
  · intro e member
    rcases List.mem_cons.mp (known.mem_iff.mp member) with new | old
    · rw [new]
      exact congrArg (Option.map Prod.fst) here
    · exact inv.device.heads e old
  · show Ring.Holds s.availRing (s.devIdx + 1) s.availIdx
      ((s.issued.drop (s.took + 1)).map Prod.fst)
    rw [dropped]
    exact avail

theorem VirtioInv.devWrite (inv : VirtioInv s) (mine : (k, h) ∈ s.taken)
    (silent : s.reporting = none) :
    let t := { s.writeStatus h with
      taken := s.taken.erase (k, h), reporting := some (k, h)
      usedRing := update s.usedRing (Ring.slot NUM s.usedIdx) h }
    DeviceInv t ∧ RequestInv t := by
  have inDevice : (k, h) ∈ s.taken ++ s.reporting.toList ++ s.unseen :=
    List.mem_append_left _ (List.mem_append_left _ mine)
  obtain ⟨p, b, c, waits, entry, head, -, owns⟩ := inv.caller_of_known inDevice
  have room := inv.used_room (List.mem_append_left _ mine)
  obtain rfl : c.head = h := head
  rw [writeStatus_eq owns]
  intro t
  have known : (s.taken.erase (k, c.head) ++ [(k, c.head)] ++ s.reported).Perm s.known := by
    rw [VirtioSys.known, silent]
    refine List.Perm.append_right _ ?_
    refine (List.perm_append_singleton _ _).trans ?_
    rw [Option.toList_none, List.append_nil]
    exact (List.perm_cons_erase mine).symm
  refine ⟨⟨inv.device.took, ?_, ?_, inv.device.seen, inv.device.clears⟩, inv.requests.staged,
    inv.requests.awaits, inv.requests.pending, inv.requests.avail, ?_, ?_, ?_⟩
  · exact (known.map Prod.fst).trans inv.device.once
  · intro e member
    exact inv.device.heads e (known.mem_iff.mp member)
  · exact inv.requests.used.stage wraps room c.head
  · intro e reporting
    cases reporting
    exact update_self ..
  · intro e member
    show (update s.info c.head { s.info c.head with status := 0 } e.2).status = 0
    by_cases this : e.2 = c.head
    · rw [this, update_self]
    · rw [update_of_ne this]
      apply inv.requests.status e
      rcases List.mem_append.mp member with new | old
      · rw [List.mem_singleton.mp new] at this
        exact absurd rfl this
      · exact List.mem_append_right _ old

theorem VirtioInv.devPublish (inv : VirtioInv s) {entry : Nat × Nat}
    (pending : s.reporting = some entry) :
    let t := { s with
      usedIdx := s.usedIdx + 1, reporting := none, reported := s.reported ++ [entry] }
    DeviceInv t ∧ RequestInv t := by
  intro t
  have member : entry ∈ s.taken ++ s.reporting.toList := by
    rw [pending]
    exact List.mem_append_right _ List.mem_cons_self
  have room := inv.used_room member
  have seen := inv.device.seen
  have slot := inv.requests.reporting entry pending
  have unseen : t.unseen = s.unseen ++ [entry] := List.drop_append_of_le_length seen
  have done : t.done = s.done := congrArg (List.map Prod.fst) (List.take_append_of_le_length seen)
  have known : t.known.Perm s.known := by
    show (s.taken ++ [] ++ (s.reported ++ [entry])).Perm _
    rw [VirtioSys.known, pending, List.append_nil, List.append_assoc]
    exact List.Perm.append_left _ List.perm_append_comm
  refine ⟨⟨inv.device.took, ?_, ?_, ?_, ?_⟩, inv.requests.staged, ?_, ?_, inv.requests.avail, ?_,
    nofun, ?_⟩
  · exact (known.map Prod.fst).trans inv.device.once
  · intro e inside
    exact inv.device.heads e (known.mem_iff.mp inside)
  · show s.cleared.length ≤ (s.reported ++ [entry]).length
    rw [List.length_append]
    omega
  · intro j b cleared
    obtain ⟨k, h, reported, issued⟩ := inv.device.clears j b cleared
    exact ⟨k, h, getElem?_append_of_some _ reported, issued⟩
  · intro p b c r waits
    rw [done]
    exact inv.requests.awaits p b c r waits
  · intro r issued open'
    rw [done] at open'
    exact inv.requests.pending r issued open'
  · rw [unseen, List.map_append]
    exact inv.requests.used.publish room slot
  · intro e inside
    rw [unseen] at inside
    apply inv.requests.status e
    rw [pending]
    rcases List.mem_append.mp inside with none | inside
    · cases none
    · rcases List.mem_append.mp inside with old | new
      · exact List.mem_append_right _ old
      · exact List.mem_append_left _ new

/-- Steps of the driver that change the state in no way the device or a request can see. -/
theorem VirtioInv.quiet (inv : VirtioInv s) (hands : t.hand = s.hand)
    (same :
      t = { s with desc := t.desc, free := t.free, lock := t.lock, owner := t.owner, pc := t.pc }) :
    DeviceInv t ∧ RequestInv t := by
  refine ⟨?_, inv.requests.quiet hands same⟩
  rw [same]
  exact { inv.device with }

theorem VirtioInv.requests_step (inv : VirtioInv s) (does : Does s e t) :
    DeviceInv t ∧ RequestInv t := by
  cases does with
  | start p b write blockno idle _ _ =>
    have hands := hand_goto s p (.alloc b write blockno)
    have mine : s.hand p = .nothing := hand_eq idle
    have same {A : Hand B → Prop} (neither : A (.buffer b) ↔ A .nothing) (q : P) :
        A ((s.goto p (.alloc b write blockno)).hand q) ↔ A (s.hand q) := by
      rw [hands]
      exact update_ind (mine ▸ neither) fun _ => Iff.rfl
    exact ⟨{ inv.device with }, inv.requests.congr
      (fun q b' c => same (A := fun hand => hand = .chain b' c) ⟨nofun, nofun⟩ q)
      (fun q b' c r => same (A := fun hand => hand = .request b' c r) ⟨nofun, nofun⟩ q) rfl⟩
  | allocFails p b write blockno u here failed =>
    have kept := allocFailed_of_alloc3Desc failed
    have hands := hand_of_allocFailed kept
    have mine : (RwPc.allocSleep b write blockno).hand = u.hand p := by
      rw [hands]
      exact (hand_eq here).symm
    have moved : (u.release p (.allocSleep b write blockno)).hand = s.hand :=
      (hand_goto_same mine).trans hands
    apply inv.quiet moved
    rw [kept.same]
    rfl
  | allocates p b write blockno u c here got =>
    obtain ⟨rfl, -, fresh⟩ := mark_of_alloc3Desc got
    exact ⟨{ inv.device with }, inv.allocates here fresh⟩
  | publish p b c here => exact inv.publishes here
  | waits p b c r here | relockAlloc p b write blockno here | relockTest p b c r here =>
    exact inv.quiet (hand_goto_same (hand_eq here).symm) rfl
  | returns p b c r u here clear freed =>
    rw [(inv.chains.owns p b c (congrArg Hand.uses (hand_eq here))).freeChain (by decide)] at freed
    cases freed
    exact ⟨{ inv.device with }, inv.returns here clear⟩
  | intrStart _ | intrEnds _ _ => exact inv.quiet rfl rfl
  | intrClears b handler more _ buf => exact inv.intrClears handler more buf
  | devTake more => exact inv.devTake more
  | devWrite k h mine silent => exact inv.devWrite mine silent
  | devPublish entry pending => exact inv.devPublish pending
  | kill p => exact inv.quiet (hand_goto_same (hand_wokenKilled (s.pc p))) rfl

theorem VirtioInv.step (inv : VirtioInv s) (step : Step s e t) : VirtioInv t := by
  have does := step.does
  obtain ⟨device, requests⟩ := inv.requests_step does
  exact ⟨inv.lock.step inv.chains does, inv.chains.step does, inv.sleep.step inv.chains does,
    device, requests⟩

theorem virtioInv_initial (disk : B → Bool) : VirtioInv (initial (P := P) disk) where
  lock := fun p => ⟨nofun, nofun⟩
  chains := chainInv_initial disk
  sleep := nofun
  device := ⟨Nat.le_refl _, .nil, nofun, Nat.le_refl _, fun j b none => by cases j <;> cases none⟩
  requests := ⟨nofun, nofun, nofun, Ring.holds_nil _ _, Ring.holds_nil _ _, nofun, nofun⟩

theorem run_virtioInv {disk : B → Bool} {trace : List (VirtioEvent P B)}
    (run : Run Step (initial disk) trace s) : VirtioInv s :=
  run.inv (virtioInv_initial disk) VirtioInv.step

/-! ### The protocol -/

/-- What `virtio_disk_intr` does with the next completion: it clears the flag of the buffer whose
request that completion is. -/
def Completes (s : VirtioSys P B) : Prop :=
  ∃ (k h : Nat) (b : B), s.unseen.head? = some (k, h) ∧ s.usedRing (Ring.slot NUM s.seenIdx) = h ∧
    s.issued[k]? = some (h, b) ∧ k ∉ s.done ∧ (s.info h).b = some b ∧ s.disk b = true ∧
    s.exec .intrLoop = some (.ok { s with
      disk := update s.disk b false, pc := fun p => wokenOn b (s.pc p)
      seenIdx := s.seenIdx + 1, cleared := s.cleared ++ [b] })

structure Protocol (s : VirtioSys P B) : Prop where
  /-- the chains of the requests in flight: three descriptors each, no descriptor in two of them -/
  chains : ∀ p b c, (s.hand p).uses = some (b, c) → c.descs.Nodup ∧ ∀ i ∈ c.descs, i < NUM
  disjoint : ∀ p q b c b' c', p ≠ q → (s.hand p).uses = some (b, c) →
    (s.hand q).uses = some (b', c') →
    c.descs.Disjoint c'.descs
  /-- `free` is clear exactly on their descriptors -/
  free : ∀ i < NUM, s.free i = false ↔ ∃ p b c, (s.hand p).uses = some (b, c) ∧ i ∈ c.descs
  /-- a completion clears the flag of its own buffer, which is recorded at its head -/
  completes : s.lock = some .intr → s.seenIdx ≠ s.usedIdx → Completes s
  /-- each request is reported once, and the flags cleared are those of the reported requests -/
  once : (s.reported.map Prod.fst).Nodup
  clears : s.cleared.length ≤ s.reported.length ∧ ∀ (j : Nat) (b : B), s.cleared[j]? = some b →
    ∃ k h : Nat, s.reported[j]? = some (k, h) ∧ s.issued[k]? = some (h, b)
  /-- the flag of a waiting call's buffer is set until its request is seen completed -/
  flag : ∀ p b c r, s.hand p = .request b c r → (s.disk b = true ↔ r ∉ s.done)
  /-- no slot is overwritten before it is consumed -/
  avail : Ring.Holds s.availRing s.devIdx s.availIdx ((s.issued.drop s.took).map Prod.fst)
  used : Ring.Holds s.usedRing s.seenIdx s.usedIdx (s.unseen.map Prod.snd)
  /-- what the device took and reported is what was published -/
  heads : ∀ e ∈ s.known, s.issued[e.1]?.map Prod.fst = some e.2
  /-- `free_chain` ends and frees exactly the chain of the finished request -/
  freeChain : ∀ p b c r, s.pc p = .test b c r → ∀ fuel, 3 ≤ fuel →
    ∃ t, freeChain fuel (s.clearInfo c.head) c.head = .ok t ∧
      ∀ i, t.free i = if i ∈ c.descs then true else s.free i
  /-- no step panics -/
  noPanic : ∀ e panic, s.exec e ≠ some (.error panic)
  /-- who sleeps for descriptors waits for a chain -/
  sleepers : s.lock = none → ∀ p b write blockno, s.pc p = .allocSleep b write blockno →
    ∃ q b' c, (s.hand q).uses = some (b', c)

theorem VirtioInv.completes (inv : VirtioInv s) (handler : s.lock = some .intr)
    (more : s.seenIdx ≠ s.usedIdx) : Completes s := by
  obtain ⟨⟨k, h⟩, rest, entries, slot, -⟩ := inv.next_unseen more
  have member : (k, h) ∈ s.unseen := by
    rw [entries]
    exact List.mem_cons_self
  have inDevice : (k, h) ∈ s.taken ++ s.reporting.toList ++ s.unseen :=
    List.mem_append_right _ member
  obtain ⟨p, b, c, -, entry, head, busy, owns⟩ := inv.caller_of_known inDevice
  have status : (s.info h).status = 0 := inv.requests.status (k, h) (List.mem_append_right _ member)
  have buffer : (s.info h).b = some b := by
    rw [← show c.head = h from head]
    exact owns.buffer
  have slot : s.usedRing (Ring.slot NUM s.seenIdx) = h := slot
  refine ⟨k, h, b, ?_, slot, entry, inv.device.not_done inDevice, buffer, busy, ?_⟩
  · rw [entries]
    rfl
  · simp only [exec]
    rw [if_pos handler, if_pos more, slot, if_neg (not_not.mpr status), buffer]

theorem VirtioInv.noPanic (inv : VirtioInv s) (e : VirtioEvent P B) (panic : VirtioPanic) :
    s.exec e ≠ some (.error panic) := by
  intro stops
  cases e with
  | start p b write blockno | publish p | intrStart | devTake | devWrite | devPublish =>
    simp only [exec] at stops
    split at stops <;> cases stops
  | tryAlloc p =>
    simp only [exec] at stops
    split at stops
    · obtain ⟨t, refused, -⟩ | ⟨c, got, -⟩ := s.alloc3Desc_spec
      · rw [refused] at stops
        cases stops
      · rw [got] at stops
        cases stops
    · cases stops
  | test p =>
    simp only [exec] at stops
    split at stops
    · rename_i b c r here
      split at stops
      · cases stops
      · have owns := inv.chains.owns p b c (congrArg Hand.uses (hand_eq here))
        rw [owns.freeChain (by decide)] at stops
        cases stops
    · cases stops
  | relock p =>
    simp only [exec] at stops
    split at stops
    · split at stops <;> cases stops
    · split at stops <;> cases stops
    · cases stops
  | intrLoop =>
    by_cases handler : s.lock = some .intr
    · by_cases more : s.seenIdx = s.usedIdx
      · simp only [exec] at stops
        rw [if_pos handler, if_neg (not_not.mpr more)] at stops
        cases stops
      · obtain ⟨k, h, b, -, -, -, -, -, -, goes⟩ := inv.completes handler more
        rw [goes] at stops
        cases stops
    · simp only [exec] at stops
      rw [if_neg handler] at stops
      cases stops
  | kill p => cases stops

/-- **The virtio request protocol holds in every state of every run**: for any number of calls and
requests, with the device completing requests in any order and the handler running at any time. -/
theorem virtio_protocol {disk : B → Bool} {trace : List (VirtioEvent P B)} {s : VirtioSys P B}
    (run : Run Step (initial disk) trace s) : Protocol s := by
  have inv := run_virtioInv run
  refine ⟨?_, inv.chains.disjoint, ?_, inv.completes, ?_, ⟨inv.device.seen, inv.device.clears⟩,
    fun p b c r waits => (inv.requests.awaits p b c r waits).2, inv.requests.avail,
      inv.requests.used,
    inv.device.heads, ?_, inv.noPanic, ?_⟩
  · intro p b c uses
    have owns := inv.chains.owns p b c uses
    exact ⟨owns.distinct, owns.inside⟩
  · intro i inside
    constructor
    · exact inv.chains.covers i inside
    · rintro ⟨p, b, c, uses, member⟩
      exact (inv.chains.owns p b c uses).used i member
  · have all : (s.known.map Prod.fst).Nodup := inv.device.once.nodup_iff.mpr List.nodup_range
    rw [known, List.map_append] at all
    exact (List.nodup_append.mp all).2.1
  · intro p b c r here fuel enough
    have owns := inv.chains.owns p b c (congrArg Hand.uses (hand_eq here))
    exact ⟨_, owns.freeChain enough, fun _ => rfl⟩
  · intro _ p b write blockno asleep
    obtain ⟨i, inside, used⟩ := inv.sleep p b write blockno asleep
    obtain ⟨q, b', c, uses, -⟩ := inv.chains.covers i inside used
    exact ⟨q, b', c, uses⟩

/-- Two requests in flight at once; the device completes the second one first. -/
def crossedRequests : List (VirtioEvent Bool Bool) :=
  [.start false false false 40, .tryAlloc false, .publish false, .test false,
   .start true true true 41, .tryAlloc true, .publish true, .test true,
   .devTake, .devTake, .devWrite 1 3, .devPublish, .intrStart, .intrLoop, .intrLoop,
   .relock true, .test true]

theorem virtio_protocol_crossed :
    ∃ s : VirtioSys Bool Bool, Run Step (initial fun _ => false) crossedRequests s ∧
      (s.issued, s.reported, s.cleared, (List.range NUM).map s.free) =
        ([(0, false), (3, true)], [(1, 3)], [true],
          [false, false, false, true, true, true, true, true]) ∧
      Protocol s := by
  obtain ⟨s, run, seen⟩ := run_of_observed
    (fun s : VirtioSys Bool Bool => (s.issued, s.reported, s.cleared, (List.range NUM).map s.free))
    (show (execAll complete crossedRequests (initial fun _ => false)).map _ =
      some ([(0, false), (3, true)], [(1, 3)], [true],
        [false, false, false, true, true, true, true, true])
      by decide +kernel)
  have run : Run Step (initial fun _ => false) crossedRequests s := run.mono Step.of_complete
  exact ⟨s, run, seen, virtio_protocol run⟩

end Xv6.VirtioSys
