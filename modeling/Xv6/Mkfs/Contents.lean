/-
**The kernel reads what `mkfs` has appended** (`mkfs/mkfs.c`, `kernel/fs.c`).

`Holds contents s`: between two calls, every inode of the image `s` holds `contents`. `iappend` adds
to one of them (`iappend_spec`); it fails only when the disk or the file is full. `mkfs_readi` is
the result for a sequence of calls: `readi` of the kernel returns the bytes that were appended.
-/

import Xv6.Mkfs.Append

namespace Xv6.Mkfs

open Lib Function

def Image.putNode (s : Image) (x : Nat) (d : Vol.Dinode) : Image :=
  s.store (IBLOCK x sb) (Vol.putDinode (s.disk (IBLOCK x sb)) (x % IPB) d)

section Nodes

variable {nodes nodes' : Nat → Vol.Dinode} {files : Nat → Plan} {s t : Image} {x b : Nat}
  {d : Vol.Dinode} {A : Type} {post : A → Image → Prop} {fails : Stop → Prop}

theorem iblock_bounds (inside : x < NINODES) : 2 ≤ IBLOCK x sb ∧ IBLOCK x sb < nmeta - 1 := by
  have bound : x / IPB < ninodeblocks := by
    unfold ninodeblocks
    exact Nat.lt_succ_of_le (Nat.div_le_div_right inside.le)
  have first : sb.inodestart = 2 + nlog := rfl
  have last : nmeta = 2 + nlog + ninodeblocks + 1 := rfl
  unfold IBLOCK
  generalize x / IPB = block at bound
  omega

theorem rinode_known {f : Vol.Dinode → MkfsM A} (sectors : s.sectors = FSSIZE)
    (inside : x < NINODES) (rest : From s (f (s.vol.dinode x)) post fails) :
    From s (rinode x >>= f) post fails := by
  have bounds := iblock_bounds inside
  have small : nmeta ≤ FSSIZE := by decide
  have reads : From s (rinode x) (fun d t => d = s.vol.dinode x ∧ t = s) fails :=
    rsect_known sectors (by omega) (.done ⟨rfl, rfl⟩)
  exact .bind reads fun d => .of_fact fun same => same ▸ rest

theorem winode_spec (sectors : s.sectors = FSSIZE) (inside : x < NINODES) (d : Vol.Dinode) :
    From s (winode x d) (fun _ t => t = s.putNode x d) fails := by
  have bounds := iblock_bounds inside
  have small : nmeta ≤ FSSIZE := by decide
  exact rsect_known sectors (by omega) (wsect_spec sectors (by omega) _)

theorem dinode_putNode (fits : d.Fits) : (s.putNode x d).vol.dinode = update s.vol.dinode x d := by
  rw [← Vol.dinode_putNode fits]
  funext y
  refine Vol.dinode_of_buf rfl ?_
  rw [Vol.putNode, Vol.buf_store]
  rfl

theorem Built.of_slots (built : Built nodes files s)
    (same : ∀ x < NINODES, ∀ m, (nodes' x).slot s.vol.entry m = (nodes x).slot s.vol.entry m) :
    Built nodes' files s := by
  have own : s.own nodes' = s.own nodes := by
    funext p
    obtain ⟨x, m⟩ := p
    ext b
    rw [own_eq_some, own_eq_some]
    exact and_congr_right fun inside => by rw [same x inside m]
  exact {
    sectors := built.sectors
    boot := built.boot
    super := built.super
    owns := own ▸ built.owns
    used := built.used
    zero := built.zero
    has := own ▸ built.has
    bytes := fun x inside k => by
      rw [← built.bytes x inside k, Vol.fileByte, Vol.fileByte, same x inside] }

theorem Built.storeMeta (built : Built nodes files s) {data : Block} (after : 2 ≤ b)
    (before : b < nmeta) : Built nodes files (s.store b data) := by
  have other : ∀ c, c < 2 ∨ nmeta ≤ c → (s.store b data).disk c = s.disk c := fun c outside =>
    update_of_ne (by omega) _ _
  have own : (s.store b data).own nodes = s.own nodes := by
    refine Vol.owner_congr rfl fun y c there j => Vol.entry_of_buf ?_
    exact other c (.inr (built.owns.inside there))
  refine {
    sectors := built.sectors
    boot := (other 0 (.inl (by omega))).trans built.boot
    super := (other 1 (.inl (by omega))).trans built.super
    owns := own ▸ built.owns
    used := built.used
    zero := fun c above => ?_
    has := own ▸ built.has
    bytes := fun x inside k => ?_ }
  · have above : s.freeblock ≤ c := above
    have start := built.freeblock_ge
    exact (other c (.inr (by omega))).trans (built.zero c above)
  · rw [← built.bytes x inside k, fileByte_vol, fileByte_vol, slot_eq_getD inside,
      slot_eq_getD inside, own]
    rw [other]
    cases held : s.own nodes (x, Vol.fileSlot (k / BSIZE)) with
    | none => exact .inl (by decide)
    | some c => exact .inr (built.owns.inside held)

theorem Built.addrs_lt (built : Built nodes files s) (full : s.freeblock ≤ FSSIZE)
    (inside : x < NINODES) (k : Fin (NDIRECT + 1)) : (nodes x).addrs k < 2 ^ 32 := by
  by_cases none : (nodes x).addrs k = 0
  · rw [none]
    decide
  · have slot : (nodes x).slot s.vol.entry k.val = (nodes x).addrs k := Vol.slot_addr k.isLt
    have at_ := own_eq_some.mpr ⟨inside, slot, none⟩
    have below := (built.own_lt at_).2
    exact Nat.lt_of_lt_of_le below (Nat.le_trans full (by decide))

end Nodes

/-! ### Between two calls -/

/-- The fields that `iappend` leaves alone. -/
def head (d : Vol.Dinode) : BitVec 16 × BitVec 16 × BitVec 16 × BitVec 16 :=
  (d.type, d.major, d.minor, d.nlink)

/-- The plans for the contents of all inodes. -/
def plans (contents : Nat → List Byte) (x : Nat) : Plan := Plan.of (contents x)

/-- **Every inode holds its content.** -/
structure Holds (contents : Nat → List Byte) (s : Image) : Prop where
  built : Built s.vol.dinode (plans contents) s
  full : s.freeblock ≤ FSSIZE
  size : ∀ x < NINODES, (s.vol.dinode x).size = (contents x).length
  small : ∀ x < NINODES, (contents x).length ≤ MAXFILE * BSIZE

section Calls

variable {contents : Nat → List Byte} {s t : Image} {x : Nat} {p : List Byte}

theorem plans_update (c : List Byte) :
    plans (update contents x c) = update (plans contents) x (Plan.of c) := by
  funext y
  exact apply_update (fun _ => Plan.of) contents x c y

theorem iappend_spec (holds : Holds contents s) (inside : x < NINODES) (p : List Byte) :
    From s (iappend x p)
      (fun _ t => Holds (update contents x (contents x ++ p)) t ∧ t.freeinode = s.freeinode ∧
        ∀ y < NINODES, head (t.vol.dinode y) = head (s.vol.dinode y))
      fun _ => NoRoom (plans contents) x (contents x ++ p) := by
  refine rinode_known holds.built.sectors inside ?_
  rw [holds.size x inside]
  refine .bind (iappendLoop_spec inside p.length (Nat.le_refl _) rfl (holds.small x inside)
    holds.built holds.full) fun r => .each fun t appended => ?_
  obtain ⟨din, off⟩ := r
  obtain ⟨built, isOff, small, ⟨addrs, node⟩, full, low, freeinode⟩ := appended
  have isOff : off = (contents x ++ p).length := isOff
  have node : din = { s.vol.dinode x with addrs := addrs } := node
  refine (winode_spec built.sectors inside _).to_post ?_
  rintro _ u rfl
  have bounds := iblock_bounds inside
  have fits : Vol.Dinode.Fits { din with size := off } := by
    refine ⟨?_, fun k => ?_⟩
    · show off < 2 ^ 32
      rw [isOff]
      exact Nat.lt_of_le_of_lt small (by decide)
    · have := built.addrs_lt full inside k
      rwa [update_self] at this
  have stored := dinode_putNode (s := t) (x := x) fits
  have kept : ∀ y < NINODES, t.vol.dinode y = s.vol.dinode y := fun y ok => by
    have := iblock_bounds ok
    exact Vol.dinode_of_buf rfl (low (IBLOCK y sb) (by omega))
  refine ⟨⟨?_, full, fun y ok => ?_, fun y ok => ?_⟩, freeinode, fun y ok => ?_⟩
  · rw [plans_update]
    refine (built.storeMeta bounds.1 (by omega)).of_slots fun y ok m => ?_
    rw [stored]
    refine update_ind ?_ fun other => ?_
    · rw [update_self]
      rfl
    · rw [update_of_ne other, kept y ok]
  · rw [stored]
    refine update_ind ?_ fun other => ?_
    · rw [update_self]
      exact isOff
    · rw [update_of_ne other, kept y ok]
      exact holds.size y ok
  · exact update_ind small fun _ => holds.small y ok
  · rw [stored, ← kept y ok]
    refine update_ind ?_ fun _ => rfl
    rw [node, ← kept x inside]
    rfl

theorem slot_of_empty {d : Vol.Dinode} (empty : ∀ k, d.addrs k = 0) (e : Nat → Nat → Nat)
    (m : Nat) : d.slot e m = 0 := by
  unfold Vol.Dinode.slot
  split
  · exact empty _
  · rw [if_neg]
    exact fun both => both.2 (empty _)

theorem Plan.not_has_nil (m : Nat) : ¬ (Plan.of []).Has m := by
  have blocks : (Plan.of []).blocks = 0 := rfl
  have indirect : (Plan.of []).indirect = false := rfl
  unfold Plan.Has
  rw [blocks, indirect]
  split_ifs
  · exact id
  · exact Nat.not_lt_zero _
  · exact Nat.not_lt_zero _

theorem Holds.addrs_of_nil (holds : Holds contents s) (inside : x < NINODES)
    (empty : contents x = []) (k : Fin (NDIRECT + 1)) : (s.vol.dinode x).addrs k = 0 := by
  have index : k.val < NDIRECT + 1 + NINDIRECT := Nat.lt_of_lt_of_le k.isLt (Nat.le_add_right _ _)
  rw [← Vol.slot_addr (e := s.vol.entry) k.isLt]
  refine holds.built.slot_eq_zero inside index ?_
  rw [plans, empty]
  exact Plan.not_has_nil k.val

theorem ialloc_spec {fails : Stop → Prop} (holds : Holds contents s)
    (inside : s.freeinode < NINODES) (empty : contents s.freeinode = []) (type : BitVec 16) :
    From s (ialloc type)
      (fun x t => x = s.freeinode ∧ Holds contents t ∧ t.freeinode = s.freeinode + 1 ∧
        ∀ y, head (t.vol.dinode y) = if y = s.freeinode then (type, 0, 0, 1)
          else head (s.vol.dinode y))
      fails := by
  refine .get_known (.modify_known ?_)
  refine .bind (winode_spec (by exact holds.built.sectors) inside _) fun _ => ?_
  refine .done ?_
  have bounds := iblock_bounds inside
  have stored :
    (Image.putNode { s with freeinode := s.freeinode + 1 } s.freeinode (newNode type)).vol.dinode =
      update s.vol.dinode s.freeinode (newNode type) :=
    dinode_putNode ⟨show 0 < 2 ^ 32 by decide, fun _ => show 0 < 2 ^ 32 by decide⟩
  have counted : Built s.vol.dinode (plans contents) { s with freeinode := s.freeinode + 1 } :=
    ⟨holds.built.sectors, holds.built.boot, holds.built.super, holds.built.owns, holds.built.used,
      holds.built.zero, holds.built.has, holds.built.bytes⟩
  refine ⟨rfl, ⟨?_, holds.full, fun y ok => ?_, holds.small⟩, rfl, fun y => ?_⟩
  · refine (counted.storeMeta bounds.1 (by omega)).of_slots fun y ok m => ?_
    rw [stored]
    refine update_ind ?_ fun _ => rfl
    rw [slot_of_empty (holds.addrs_of_nil inside empty)]
    exact slot_of_empty (fun _ => rfl) _ m
  · rw [stored]
    refine update_ind ?_ fun _ => holds.size y ok
    rw [empty]
    rfl
  · rw [stored]
    exact update_ind (if_pos rfl).symm fun other => (if_neg other).symm

end Calls

/-! ### Sequences of calls -/

structure Room (contents : Nat → List Byte) : Prop where
  disk : used (plans contents) ≤ FSSIZE
  file : ∀ x < NINODES, (contents x).length ≤ MAXFILE * BSIZE

def iappends : List (Nat × List Byte) → MkfsM Unit
  | [] => return ()
  | (inum, chunk) :: rest => do
    iappend inum chunk
    iappends rest

/-- `ialloc` for a sequence of types. -/
def iallocs : List (BitVec 16) → MkfsM Unit
  | [] => return ()
  | type :: rest => do
    let _ ← ialloc type
    iallocs rest

def chunks (calls : List (Nat × List Byte)) (x : Nat) : List Byte :=
  (calls.filter fun call => call.1 = x).flatMap Prod.snd

section Sequences

variable {contents contents' : Nat → List Byte} {s t : Image} {x : Nat} {p : List Byte}

theorem used_mono (longer : ∀ x < NINODES, (contents x).length ≤ (contents' x).length) :
    used (plans contents) ≤ used (plans contents') := by
  refine Nat.add_le_add_left (Finset.sum_le_sum fun x inside => ?_) nmeta
  refine Plan.need_le ?_ rfl rfl
  exact Nat.div_le_div_right
    (Nat.sub_le_sub_right (Nat.add_le_add_right (longer x (Finset.mem_range.mp inside)) _) _)

theorem Room.not_noRoom (room : Room contents') (inside : x < NINODES)
    (longer : ∀ y < NINODES, (update contents x p y).length ≤ (contents' y).length) :
    ¬ NoRoom (plans contents) x p := by
  have here := longer x inside
  rw [update_self] at here
  rintro (disk | file)
  · rw [← plans_update] at disk
    exact absurd (Nat.le_trans (used_mono longer) room.disk) (Nat.not_le.mpr disk)
  · exact absurd (Nat.le_trans here (room.file x inside)) (Nat.not_le.mpr file)

theorem chunks_cons (inum : Nat) (chunk : List Byte) (rest : List (Nat × List Byte)) (x : Nat) :
    contents x ++ chunks ((inum, chunk) :: rest) x =
      update contents inum (contents inum ++ chunk) x ++ chunks rest x := by
  unfold chunks
  by_cases same : x = inum
  · subst same
    rw [List.filter_cons_of_pos (by simp), List.flatMap_cons, update_self, List.append_assoc]
  · rw [List.filter_cons_of_neg (by simp [Ne.symm same]), update_of_ne same]

theorem iappends_spec : ∀ {calls : List (Nat × List Byte)} {contents : Nat → List Byte} {s : Image},
    (∀ call ∈ calls, call.1 < NINODES) → Holds contents s →
      From s (iappends calls)
      (fun _ t => Holds (fun x => contents x ++ chunks calls x) t)
        fun _ => ¬ Room fun x => contents x ++ chunks calls x := by
  intro calls
  induction calls with
  | nil =>
    intro contents s _ holds
    refine .done ?_
    have nothing : (fun x => contents x ++ chunks [] x) = contents := by
      funext x
      exact List.append_nil _
    rw [nothing]
    exact holds
  | cons call rest ih =>
    obtain ⟨inum, chunk⟩ := call
    intro contents s inside holds
    have here : inum < NINODES := inside _ List.mem_cons_self
    have whole : (fun x => contents x ++ chunks ((inum, chunk) :: rest) x) =
        fun x => update contents inum (contents inum ++ chunk) x ++ chunks rest x :=
      funext fun x => chunks_cons inum chunk rest x
    rw [whole]
    refine .bind ((iappend_spec holds here chunk).to_fails fun _ noRoom room => ?_) fun _ => .each fun t found => ?_
    · refine room.not_noRoom here (fun y _ => ?_) noRoom
      rw [List.length_append]
      exact Nat.le_add_right _ _
    · exact ih (fun call member => inside call (List.mem_cons_of_mem _ member)) found.1

theorem iallocs_spec {fails : Stop → Prop} : ∀ {types : List (BitVec 16)} {s : Image},
    s.freeinode + types.length ≤ NINODES → Holds (fun _ => []) s →
      From s (iallocs types) (fun _ t => Holds (fun _ => []) t) fails := by
  intro types
  induction types with
  | nil =>
    intro s _ holds
    exact .done holds
  | cons type rest ih =>
    intro s few holds
    rw [List.length_cons] at few
    refine .bind (ialloc_spec holds (by omega) rfl type) fun _ => .each fun t found => ?_
    obtain ⟨-, holds, freeinode, -⟩ := found
    exact ih (by omega) holds

end Sequences

/-! ### The empty image -/

theorem zeroBlocks_spec {fails : Stop → Prop} {s : Image} (zero : s.disk = fun _ => Bytes.zero) :
    ∀ n ≤ FSSIZE, From s (zeroBlocks n)
      (fun _ t => t = { s with sectors := max s.sectors n }) fails := by
  intro n
  induction n with
  | zero =>
    intro _
    exact .done (by rw [Nat.max_eq_left (Nat.zero_le _)])
  | succ n ih =>
    intro small
    refine .bind (ih (by omega)) fun _ => .modify fun t same => ?_
    subst same
    have narrow : n < 2 ^ 22 := Nat.lt_of_lt_of_le small (by decide)
    have same : update s.disk n Bytes.zero = s.disk := by
      rw [Function.update_eq_self_iff, zero]
    rw [sector_eq narrow, same, Nat.max_assoc, Nat.max_eq_right (Nat.le_succ n)]

-- a thousand rounds are not to be unfolded
attribute [local irreducible] zeroBlocks

def blank : Image where
  disk := update (fun _ => Bytes.zero) 1 superblock
  sectors := FSSIZE
  freeinode := 1
  freeblock := nmeta

theorem format_spec {fails : Stop → Prop} : From start format (fun _ t => t = blank) fails := by
  refine .modify_known (.bind (zeroBlocks_spec rfl FSSIZE (Nat.le_refl _)) fun _ => ?_)
  refine .modify fun t same => ?_
  subst same
  rfl

theorem disk_blank {b : Nat} (other : b ≠ 1) : blank.disk b = Bytes.zero := by
  show update (fun _ => Bytes.zero) 1 superblock b = Bytes.zero
  rw [update_of_ne other]

theorem dinode_blank (y : Nat) : blank.vol.dinode y = ⟨0, 0, 0, 0, 0, fun _ => 0⟩ := by
  have block : blank.disk (IBLOCK y sb) = Bytes.zero := by
    have first : sb.inodestart = 2 + nlog := rfl
    have different : IBLOCK y sb ≠ 1 := by
      unfold IBLOCK
      generalize y / IPB = block
      omega
    exact disk_blank different
  show Vol.getDinode (blank.disk (IBLOCK y sb)) _ = _
  rw [block]
  simp [Vol.getDinode]

theorem blank_holds : Holds (fun _ => []) blank := by
  have empty : ∀ x m, (blank.vol.dinode x).slot blank.vol.entry m = 0 := fun x m => by
    rw [dinode_blank]
    exact slot_of_empty (fun _ => rfl) _ _
  have own : ∀ p, blank.own blank.vol.dinode p = none := fun p => by
    refine Option.eq_none_iff_forall_ne_some.mpr fun b at_ => ?_
    obtain ⟨-, same, some⟩ := own_eq_some.mp at_
    exact some (same.symm.trans (empty _ _))
  have super : blank.disk 1 = superblock := by
    show update (fun _ => Bytes.zero) 1 superblock 1 = superblock
    rw [update_self]
  refine ⟨⟨rfl, disk_blank (by decide), super, ?_, ?_, fun b above => ?_, fun x _ m _ => ?_,
    fun x _ k => ?_⟩, by decide, fun x _ => ?_, fun _ _ => Nat.zero_le _⟩
  · refine ⟨fun first => ?_, fun held => ?_, fun inside => ?_⟩
    · rw [own] at first
      cases first
    · rw [own] at held
      cases held
    · refine ⟨fun _ p held => ?_, fun _ => inside⟩
      rw [own] at held
      cases held
  · unfold used
    have none : ∀ x ∈ Finset.range NINODES, (plans (fun _ => []) x).need = 0 := fun x _ => by
      show (Plan.of []).need = 0
      decide
    rw [Finset.sum_eq_zero none]
    rfl
  · have above : nmeta ≤ b := above
    have : 1 < nmeta := by decide
    exact disk_blank (by omega)
  · rw [own]
    exact ⟨fun some => absurd rfl some, fun has => absurd has (Plan.not_has_nil m)⟩
  · rw [fileByte_vol, empty, disk_blank (by decide), Bytes.byte_zero]
    rfl
  · rw [dinode_blank]
    rfl

/-! ### Reading the image -/

theorem readsb_superblock : readsb superblock = sb := by
  have field : ∀ k (inside : k < ([FSMAGIC, sb.size, sb.nblocks, sb.ninodes, nlog, 2, sb.inodestart,
      sb.bmapstart] : List Nat).length), superblock.le32 (0 + 4 * k) = _ := fun k inside =>
    Bytes.le32_setLe32s (Bytes.zero : Block) inside (by decide)
  unfold readsb
  rw [show superblock.le32 4 = _ from field 1 (by decide), show superblock.le32 8 = _
    from field 2 (by decide),
    show superblock.le32 12 = _ from field 3 (by decide), show superblock.le32 24 = _
      from field 6 (by decide),
    show superblock.le32 28 = _ from field 7 (by decide)]
  rfl

/-- The kernel runs on the image, and an entry of the inode table holds inode `inum`. -/
structure Loaded (disk : Disk) (s : Vol) (i : Fin NINODE) (inum : Nat) : Prop where
  super : s.sb = readsb (s.buf 1)
  buf : s.buf = disk
  copy : (s.itable i).copy = s.dinode inum

section Reading

variable {contents : Nat → List Byte} {image : Image} {x off len : Nat}

theorem Built.slot_fileSlot_ne_zero {nodes : Nat → Vol.Dinode}
    (built : Built nodes (plans contents) image) (inside : x < NINODES)
    (small : (contents x).length ≤ MAXFILE * BSIZE) {n : Nat}
    (below : n < ((contents x).length + BSIZE - 1) / BSIZE) :
    (nodes x).slot image.vol.entry (Vol.fileSlot n) ≠ 0 := by
  have file : n < MAXFILE := by
    simp only [BSIZE] at *
    omega
  have index : Vol.fileSlot n < NDIRECT + 1 + NINDIRECT := by
    unfold MAXFILE at file
    unfold Vol.fileSlot
    split <;> omega
  exact built.slot_ne_zero inside index ((Plan.has_fileSlot _ n).mpr below)

theorem Holds.full_dinode (holds : Holds contents image) (inside : x < NINODES) :
    (image.vol.dinode x).Full image.vol.entry := by
  have size := holds.size x inside
  have small := holds.small x inside
  refine ⟨by omega, fun n below => holds.built.slot_fileSlot_ne_zero inside small ?_⟩
  rw [size] at below
  simp only [BSIZE] at *
  omega

theorem Holds.fileBytes_eq (holds : Holds contents image) (inside : x < NINODES)
    (below : off + len ≤ (contents x).length) :
    image.vol.fileBytes (image.vol.dinode x) off len = ((contents x).drop off).take len := by
  unfold Vol.fileBytes
  refine List.ext_getElem ?_ fun k small _ => ?_
  · rw [List.length_map, List.length_range, List.length_take, List.length_drop]
    omega
  · rw [List.length_map, List.length_range] at small
    have here : off + k < (contents x).length := by omega
    rw [List.getElem_map, List.getElem_range, holds.built.bytes x inside, List.getElem_take,
      List.getElem_drop]
    exact List.getD_eq_getElem _ _ here

theorem Holds.readi (holds : Holds contents image) {s : Vol} {i : Fin NINODE} (inside : x < NINODES)
    (loaded : Loaded image.disk s i x) (dst : Dest) {n : Nat} (offFits : off < 2 ^ 32)
    (nFits : n < 2 ^ 32) (isLen : len = min ((off + n) % 2 ^ 32) (contents x).length - off) :
    ∃ r, Vol.readi i dst off n s = .ok (r, s) ∧
      (r.1 = -1 ∨ r = ((len : Int), ((contents x).drop off).take len)) ∧
      (dst.Takes len → r = ((len : Int), ((contents x).drop off).take len)) := by
  have super : s.sb = sb := by
    rw [loaded.super, loaded.buf, holds.built.super, readsb_superblock]
  have nodes : s.dinode x = image.vol.dinode x := Vol.dinode_of_buf super (by rw [loaded.buf]; rfl)
  have entries : s.entry = image.vol.entry := by
    funext b j
    exact Vol.entry_of_buf (by rw [loaded.buf]; rfl)
  have copy : (s.itable i).copy = image.vol.dinode x := loaded.copy.trans nodes
  have bytes : ∀ off len, s.fileBytes (s.itable i).copy off len =
      image.vol.fileBytes (image.vol.dinode x) off len := by
    intro off len
    unfold Vol.fileBytes Vol.fileByte
    rw [copy, entries, loaded.buf]
    rfl
  have full : (s.itable i).copy.Full s.entry := by
    rw [copy, entries]
    exact holds.full_dinode inside
  have reads : From s (Vol.readi i dst off n) _ fun _ => False :=
    Vol.readi_spec full offFits nFits
  have size : (s.itable i).copy.size = (contents x).length := by
    rw [copy, holds.size x inside]
  have found := reads s rfl
  cases done : Vol.readi i dst off n s with
  | error e =>
    rw [done] at found
    exact found.elim
  | ok result =>
    obtain ⟨r, t⟩ := result
    rw [done] at found
    obtain ⟨result, same⟩ := found
    have same : t = s := same
    subst same
    refine ⟨r, rfl, ?_⟩
    rw [size, ← isLen] at result
    by_cases some : off ≤ (contents x).length
    · rw [Vol.Reads, bytes, holds.fileBytes_eq inside (by omega)] at result
      exact result
    · have none : len = 0 := by omega
      subst none
      exact result

end Reading

/-- `ialloc` for some types, then `iappend` for some chunks, on a new image. -/
def build (types : List (BitVec 16)) (calls : List (Nat × List Byte)) : MkfsM Unit := do
  format
  iallocs types
  iappends calls

/-- **`mkfs` and the kernel agree on file contents.** For every sequence of `iappend` calls on
inodes below `sb.ninodes` for which there is room, `mkfs` succeeds, and on the image that it leaves
`readi` returns the bytes from `off` up to `off + n` or the end of what was appended to this inode.
-/
theorem mkfs_readi (types : List (BitVec 16)) (few : types.length < NINODES)
    (calls : List (Nat × List Byte)) (inside : ∀ call ∈ calls, call.1 < NINODES)
    (room : Room (chunks calls)) :
    ∃ image, build types calls start = .ok ((), image) ∧
      ∀ (s : Vol) (i : Fin NINODE) (inum : Nat), inum < NINODES → Loaded image.disk s i inum →
        ∀ (dst : Dest) (off n len : Nat), off < 2 ^ 32 → n < 2 ^ 32 →
          len = min ((off + n) % 2 ^ 32) (chunks calls inum).length - off →
          ∃ r, Vol.readi i dst off n s = .ok (r, s) ∧
            (r.1 = -1 ∨ r = ((len : Int), ((chunks calls inum).drop off).take len)) ∧
            (dst.Takes len → r = ((len : Int), ((chunks calls inum).drop off).take len)) := by
  have builds : From start (build types calls) (fun _ t => Holds (chunks calls) t)
      fun _ => ¬ Room (chunks calls) := by
    refine .bind format_spec fun _ => ?_
    have allocs : From blank (iallocs types) _ fun _ => ¬ Room (chunks calls) :=
      iallocs_spec (by show 1 + types.length ≤ NINODES; omega) blank_holds
    exact .bind allocs fun _ => .each fun t holds => iappends_spec inside holds
  have found := builds start rfl
  cases done : build types calls start with
  | error e =>
    rw [done] at found
    exact absurd room found
  | ok result =>
    obtain ⟨u, image⟩ := result
    rw [done] at found
    have holds : Holds (chunks calls) image := found
    exact ⟨image, rfl, fun s i inum ok loaded dst off n len offFits nFits isLen =>
      holds.readi ok loaded dst offFits nFits isLen⟩

/-- Two chunks for the root directory; the second one starts in the last byte of a block. -/
def twoChunks : List (Nat × List Byte) := [(1, List.replicate 1023 7), (2, [9]), (1, [1, 2, 3])]

theorem mkfs_readi_twoChunks : ∃ image, build [T_DIR, T_FILE] twoChunks start = .ok ((), image) ∧
    ∃ (s : Vol) (i : Fin NINODE), Loaded image.disk s i 1 ∧
      Vol.readi i .kernel 1022 100 s = .ok ((4, [7, 1, 2, 3]), s) := by
  obtain ⟨image, built, reads⟩ := mkfs_readi [T_DIR, T_FILE] (by decide) twoChunks (by decide)
    ⟨by decide +kernel, by decide +kernel⟩
  let i : Fin NINODE := ⟨0, by decide⟩
  let booted : Vol := .boot (readsb (image.disk 1)) image.disk
  let s : Vol := booted.setInode i ⟨1, 1, true, true, booted.dinode 1⟩
  have loaded : Loaded image.disk s i 1 := by
    refine ⟨rfl, rfl, ?_⟩
    show (update booted.itable i _ i).copy = _
    rw [update_self]
    rfl
  obtain ⟨r, done, -, takes⟩ :=
    reads s i 1 (by decide) loaded .kernel 1022 100 4 (by decide) (by decide)
    (by decide +kernel)
  have bytes : ((chunks twoChunks 1).drop 1022).take 4 = [7, 1, 2, 3] := by decide +kernel
  rw [takes (Dest.takes_kernel 4), bytes] at done
  exact ⟨image, built, s, i, loaded, done⟩

end Xv6.Mkfs
