/-
**The image that `mkfs` leaves** (`mkfs/mkfs.c`: `main`).

`contentsOf files` is what the inodes are meant to hold: the root directory its entries, and inode
`k + 2` the `k`th input file. `Stage` holds after some of the files, `Finished` at the end of
`main`. `main` rounds the size of the root directory up by too much when the entries fill whole
blocks (`Finished.hole`).
-/

import Xv6.Mkfs.Contents

namespace Xv6.Mkfs

open Lib Function

/-! ### What the inodes are meant to hold -/

def Input.bytes (f : Input) : List Byte := (f.data.getD []).flatten

def rootEntries (files : List Input) : List (List Byte) :=
  [Vol.dirent dot ROOTINO, Vol.dirent dotdot ROOTINO] ++
    files.mapIdx fun k f => Vol.dirent f.name (k + 2)

def contentsOf (files : List Input) (x : Nat) : List Byte :=
  if x = ROOTINO then (rootEntries files).flatten
  else if x < 2 then []
  else ((files[x - 2]?).map Input.bytes).getD []

def headOf (files : List Input) (x : Nat) : BitVec 16 × BitVec 16 × BitVec 16 × BitVec 16 :=
  if x = ROOTINO then (T_DIR, 0, 0, 1)
  else if 2 ≤ x ∧ x < files.length + 2 then (T_FILE, 0, 0, 1)
  else (0, 0, 0, 0)

structure Ready (files : List Input) : Prop where
  opens : ∀ f ∈ files, f.shortname.contains slash = false ∧ f.data ≠ none
  room : Room (contentsOf files)

section Contents

variable {files rest : List Input} {f : Input} {x : Nat}

theorem length_dirent (name : Name) (inum : Nat) : (Vol.dirent name inum).length = 16 := by
  simp only [Vol.dirent, List.length_append, List.length_take, List.length_replicate,
    List.length_cons, List.length_nil, DIRSIZ]
  omega

theorem rootEntries_append : rootEntries (files ++ [f]) =
    rootEntries files ++ [Vol.dirent f.name (files.length + 2)] := by
  simp [rootEntries, List.mapIdx_append]

theorem length_root (files : List Input) :
    (contentsOf files ROOTINO).length = 16 * (files.length + 2) := by
  rw [contentsOf, if_pos rfl]
  induction files using List.reverseRecOn with
  | nil => decide
  | append_singleton files f ih =>
    rw [rootEntries_append, List.flatten_append, List.length_append, ih, List.length_append]
    simp only [List.flatten_cons, List.flatten_nil, List.append_nil, length_dirent,
      List.length_singleton]
    omega

theorem contentsOf_append : contentsOf (files ++ [f]) =
    update (update (contentsOf files) ROOTINO
      (contentsOf files ROOTINO ++ Vol.dirent f.name (files.length + 2)))
      (files.length + 2) f.bytes := by
  funext x
  by_cases new : x = files.length + 2
  · subst new
    have notRoot : files.length + 2 ≠ ROOTINO := by
      unfold ROOTINO
      omega
    rw [update_self, contentsOf, if_neg notRoot, if_neg (by omega), Nat.add_sub_cancel]
    simp
  · rw [update_of_ne new]
    by_cases root : x = ROOTINO
    · subst root
      rw [update_self, contentsOf, if_pos rfl, contentsOf, if_pos rfl, rootEntries_append]
      simp
    · rw [update_of_ne root, contentsOf, if_neg root, contentsOf, if_neg root]
      split
      · rfl
      · rw [List.getElem?_append]
        split
        · rfl
        · have beyond : [f].length ≤ x - 2 - files.length := by
            rw [List.length_singleton]
            omega
          rw [List.getElem?_eq_none beyond, List.getElem?_eq_none (by omega)]

theorem contentsOf_le (files rest : List Input) (x : Nat) :
    (contentsOf files x).length ≤ (contentsOf (files ++ rest) x).length := by
  by_cases root : x = ROOTINO
  · subst root
    rw [length_root, length_root, List.length_append]
    omega
  · rw [contentsOf, if_neg root, contentsOf, if_neg root]
    split
    · exact Nat.le_refl _
    · rw [List.getElem?_append]
      split
      · exact Nat.le_refl _
      · rw [List.getElem?_eq_none (by omega)]
        exact Nat.zero_le _

theorem Ready.of_append (ready : Ready (files ++ rest)) : Ready files where
  opens f member := ready.opens f (List.mem_append_left _ member)
  room := ⟨Nat.le_trans (used_mono fun x _ => contentsOf_le files rest x) ready.room.disk,
    fun x inside => Nat.le_trans (contentsOf_le files rest x) (ready.room.file x inside)⟩

theorem contentsOf_new : contentsOf files (files.length + 2) = [] := by
  have notRoot : files.length + 2 ≠ ROOTINO := by
    unfold ROOTINO
    omega
  rw [contentsOf, if_neg notRoot, if_neg (by omega), Nat.add_sub_cancel,
    List.getElem?_eq_none (Nat.le_refl _)]
  rfl

end Contents

/-! ### The loop over the input files -/

structure Stage (files : List Input) (s : Image) : Prop where
  holds : Holds (contentsOf files) s
  freeinode : s.freeinode = files.length + 2
  heads : ∀ x < NINODES, head (s.vol.dinode x) = headOf files x

section Loop

variable {files : List Input} {contents : Nat → List Byte} {s : Image} {x : Nat}

theorem appendAll_spec (inside : x < NINODES) :
    ∀ {pieces : List (List Byte)} {contents : Nat → List Byte} {s : Image}, Holds contents s →
      From s (appendAll x pieces)
        (fun _ t => Holds (update contents x (contents x ++ pieces.flatten)) t ∧
          t.freeinode = s.freeinode ∧ ∀ y < NINODES, head (t.vol.dinode y) = head (s.vol.dinode y))
        fun _ => ¬ Room (update contents x (contents x ++ pieces.flatten)) := by
  intro pieces
  induction pieces with
  | nil =>
    intro contents s holds
    refine .done ?_
    rw [List.flatten_nil, List.append_nil, update_eq_self]
    exact ⟨holds, rfl, fun _ _ => rfl⟩
  | cons piece rest ih =>
    intro contents s holds
    rw [List.flatten_cons, ← List.append_assoc]
    refine .bind ((iappend_spec holds inside piece).to_fails fun _ noRoom room => ?_) fun _ => .each fun t found => ?_
    · refine room.not_noRoom inside (fun y _ => ?_) noRoom
      refine update_ind ?_ fun other => ?_
      · rw [update_self]
        exact (List.sublist_append_left _ _).length_le
      · rw [update_of_ne other]
    · obtain ⟨holds', freeinode, heads⟩ := found
      have next := ih holds'
      rw [update_self, update_idem] at next
      refine next.to_post ?_
      rintro _ u ⟨holds'', freeinode', heads'⟩
      exact ⟨holds'', freeinode'.trans freeinode, fun y ok => (heads' y ok).trans (heads y ok)⟩

theorem headOf_append {f : Input} (y : Nat) : headOf (files ++ [f]) y =
    if y = files.length + 2 then (T_FILE, 0, 0, 1) else headOf files y := by
  unfold headOf ROOTINO
  rw [List.length_append, List.length_singleton]
  split_ifs <;> first | rfl | omega

theorem addFile_spec (stage : Stage files s) (few : files.length + 2 < NINODES) (f : Input) :
    From s (addFile f) (fun _ t => Stage (files ++ [f]) t)
      fun _ => ¬ Ready (files ++ [f]) := by
  have last : f ∈ files ++ [f] := List.mem_append_right _ List.mem_cons_self
  have root : ROOTINO < NINODES := by decide
  have notRoot : files.length + 2 ≠ ROOTINO := by
    unfold ROOTINO
    omega
  unfold addFile
  refine .ite (fun bad => ?_) fun _ => ?_
  · refine .throw_bind fun _ _ ready => ?_
    rw [(ready.opens f last).1] at bad
    cases bad
  cases opened : f.data with
  | none => exact .throw fun _ _ ready => (ready.opens f last).2 opened
  | some chunks =>
    have isNew : contentsOf files s.freeinode = [] := by
      rw [stage.freeinode]
      exact contentsOf_new
    refine .bind (ialloc_spec stage.holds (by rw [stage.freeinode]; exact few) isNew T_FILE)
      fun inum => .each fun t allocated => ?_
    obtain ⟨rfl, holds, freeinode, heads⟩ := allocated
    rw [stage.freeinode] at freeinode heads ⊢
    refine .bind ((iappend_spec holds root _).to_fails fun _ noRoom ready => ?_) fun _ => .each fun u entered => ?_
    · refine ready.room.not_noRoom root (fun y _ => ?_) noRoom
      rw [contentsOf_append]
      by_cases new : y = files.length + 2
      · rw [new, update_of_ne notRoot, contentsOf_new]
        exact Nat.zero_le _
      · rw [update_of_ne new]
    · obtain ⟨holds', freeinode', heads'⟩ := entered
      have appends := @appendAll_spec _ few chunks _ _ holds'
      rw [update_of_ne notRoot, contentsOf_new, List.nil_append] at appends
      have bytes : chunks.flatten = f.bytes := by
        rw [Input.bytes, opened]
        rfl
      rw [bytes, ← contentsOf_append] at appends
      refine appends.weaken (fun _ same => same) ?_ fun _ noRoom ready => noRoom ready.room
      rintro _ v ⟨holds'', freeinode'', heads''⟩
      refine ⟨holds'', ?_, fun y ok => ?_⟩
      · rw [freeinode'', freeinode', freeinode, List.length_append, List.length_singleton]
      · rw [heads'' y ok, heads' y ok, heads y, headOf_append, stage.heads y ok]

theorem addFiles_spec : ∀ {rest files : List Input} {s : Image}, Stage files s →
    (files ++ rest).length + 2 ≤ NINODES →
      From s (addFiles rest) (fun _ t => Stage (files ++ rest) t)
        fun _ => ¬ Ready (files ++ rest) := by
  intro rest
  induction rest with
  | nil =>
    intro files s stage _
    refine .done ?_
    rw [List.append_nil]
    exact stage
  | cons f rest ih =>
    intro files s stage few
    rw [List.append_cons] at few ⊢
    have here : files.length + 2 < NINODES := by
      rw [List.length_append, List.length_append, List.length_singleton] at few
      omega
    refine .bind ((addFile_spec stage here f).to_fails fun _ notReady ready => notReady ready.of_append) fun _ => .each fun t added => ih added few

end Loop

/-! ### The end of `main` -/

-- a thousand rounds are not to be unfolded
attribute [local irreducible] format

/-- The size that `main` gives to the root directory. -/
def rootSize (files : List Input) : Nat := (16 * (files.length + 2) / BSIZE + 1) * BSIZE

structure Finished (files : List Input) (s : Image) : Prop where
  built : Built s.vol.dinode (plans (contentsOf files)) s
  full : s.freeblock ≤ FSSIZE
  small : ∀ x < NINODES, (contentsOf files x).length ≤ MAXFILE * BSIZE
  heads : ∀ x < NINODES, head (s.vol.dinode x) = headOf files x
  sizes : ∀ x < NINODES, (s.vol.dinode x).size =
    if x = ROOTINO then rootSize files else (contentsOf files x).length
  bitmap : s.disk sb.bmapstart = usedBits s.freeblock

section End

variable {files : List Input} {s : Image} {fails : Stop → Prop}

theorem rootSize_lt (few : files.length + 2 ≤ NINODES) : rootSize files < 2 ^ 32 := by
  simp only [rootSize, NINODES, BSIZE] at *
  omega

theorem Image.disk_store_self (s : Image) (b : Nat) (data : Block) :
    (s.store b data).disk b = data :=
  update_self _ _ _

/-- What `fixRoot` and `balloc` do to the image. -/
def Image.finish (s : Image) (size : Nat) : Image :=
  (s.putNode ROOTINO { s.vol.dinode ROOTINO with size := size }).store sb.bmapstart
    (usedBits s.freeblock)

theorem finish_spec (stage : Stage files s) :
    From s (do fixRoot; balloc (← get).freeblock)
      (fun _ t => t = s.finish (rootSize files)) fails := by
  have root : ROOTINO < NINODES := by decide
  have sectors := stage.holds.built.sectors
  have size : (s.vol.dinode ROOTINO).size = 16 * (files.length + 2) := by
    rw [stage.holds.size ROOTINO root, length_root]
  have fixes : From s fixRoot
      (fun _ t => t = s.putNode ROOTINO { s.vol.dinode ROOTINO with size := rootSize files })
      fails := by
    refine rinode_known sectors root ?_
    rw [size]
    exact winode_spec sectors root _
  refine .bind fixes fun _ => .get_known (.ite (fun _ => ?_) fun large => ?_)
  · exact wsect_spec (by exact sectors) (by decide) _
  · refine absurd (Nat.lt_of_le_of_lt stage.holds.full ?_) large
    decide

theorem Stage.finished (stage : Stage files s) (few : files.length + 2 ≤ NINODES) :
    Finished files (s.finish (rootSize files)) := by
  have root : ROOTINO < NINODES := by decide
  have bounds := iblock_bounds root
  have fits : Vol.Dinode.Fits { s.vol.dinode ROOTINO with size := rootSize files } :=
    ⟨rootSize_lt few, fun k => stage.holds.built.addrs_lt stage.holds.full root k⟩
  have stored : ∀ x < NINODES, (s.finish (rootSize files)).vol.dinode x =
      update s.vol.dinode ROOTINO { s.vol.dinode ROOTINO with size := rootSize files } x := by
    intro x inside
    rw [← dinode_putNode fits]
    refine Vol.dinode_of_buf rfl (update_of_ne ?_ _ _)
    show IBLOCK x sb ≠ sb.bmapstart
    have := iblock_bounds inside
    have last : sb.bmapstart = nmeta - 1 := by decide
    omega
  refine {
    built := ?_
    full := stage.holds.full
    small := stage.holds.small
    heads := fun x inside => ?_
    sizes := fun x inside => ?_
    bitmap := Image.disk_store_self _ _ _ }
  · refine ((stage.holds.built.storeMeta bounds.1 (by omega)).storeMeta (by decide)
      (by decide)).of_slots
      fun x inside m => ?_
    rw [stored x inside]
    exact update_ind rfl fun _ => rfl
  · rw [stored x inside, ← stage.heads x inside]
    exact update_ind rfl fun _ => rfl
  · rw [stored x inside]
    refine update_ind (if_pos rfl).symm fun other => ?_
    rw [if_neg other]
    exact stage.holds.size x inside

theorem update_root_le {c : List Byte} (short : c.length ≤ 32) (y : Nat) :
    (update (fun _ => []) ROOTINO c y).length ≤ (contentsOf files y).length := by
  refine update_ind ?_ fun _ => Nat.zero_le _
  rw [length_root]
  omega

theorem contentsOf_nil : contentsOf [] =
    update (fun _ => []) ROOTINO (Vol.dirent dot ROOTINO ++ Vol.dirent dotdot ROOTINO) := by
  funext y
  refine update_ind rfl fun other => ?_
  rw [contentsOf, if_neg other]
  split <;> rfl

theorem headOf_nil (y : Nat) :
    headOf [] y = if y = ROOTINO then (T_DIR, 0, 0, 1) else (0, 0, 0, 0) := by
  have none : ¬ (2 ≤ y ∧ y < ([] : List Input).length + 2) := by
    rw [List.length_nil]
    omega
  rw [headOf, if_neg none]

/-- **`main`** leaves such an image, or the input does not fit. -/
theorem main_spec (few : files.length + 2 ≤ NINODES) :
    From start (main files) (fun _ t => Finished files t)
      fun _ => ¬ Ready files := by
  have root : ROOTINO < NINODES := by decide
  refine .bind format_spec fun _ => .bind (ialloc_spec blank_holds (by decide) rfl T_DIR)
    fun rootino => .each fun t allocated => ?_
  obtain ⟨rfl, holds, freeinode, heads⟩ := allocated
  refine .ite (fun wrong => absurd rfl wrong) fun _ => ?_
  refine .bind ((iappend_spec holds root _).to_fails fun _ noRoom ready => ?_) fun _ => .each fun u dotted => ?_
  · refine ready.room.not_noRoom root (fun y _ => update_root_le ?_ y) noRoom
    decide
  obtain ⟨holds', freeinode', heads'⟩ := dotted
  refine .bind ((iappend_spec holds' root _).to_fails fun _ noRoom ready => ?_) fun _ => .each fun v dotdotted => ?_
  · refine ready.room.not_noRoom root (fun y _ => ?_) noRoom
    rw [update_idem, update_self]
    exact update_root_le (by decide) y
  obtain ⟨holds'', freeinode'', heads''⟩ := dotdotted
  have stage : Stage [] v := by
    refine ⟨?_, ?_, fun y ok => ?_⟩
    · rw [update_idem, update_self] at holds''
      rw [contentsOf_nil]
      exact holds''
    · rw [freeinode'', freeinode', freeinode]
      rfl
    · rw [heads'' y ok, heads' y ok, heads y, dinode_blank, headOf_nil]
      rfl
  have adds := @addFiles_spec files [] v stage few
  rw [List.nil_append] at adds
  refine .bind adds fun _ => .each fun w stage => (finish_spec stage).to_post ?_
  rintro _ _ rfl
  exact stage.finished few

end End

/-! ### Well-formed images -/

/-- **A well-formed image** of the input files, as the kernel finds it. -/
structure WellFormed (files : List Input) (v : Vol) : Prop where
  /-- the layout that `main` has computed -/
  super : v.sb = sb
  numbers : files.length + 2 ≤ v.sb.ninodes
  /-- the root directory and the files are allocated, with one link, and nothing else is -/
  heads : ∀ x < v.sb.ninodes, head (v.dinode x) = headOf files x
  data : ∀ k f, files[k]? = some f → (v.dinode (k + 2)).size = f.bytes.length ∧
    v.fileBytes (v.dinode (k + 2)) 0 f.bytes.length = f.bytes
  /-- every block below the size is there, no block is at two places, and the bitmap marks these
  blocks and the ones before the data -/
  owned : Vol.Owned v.dinode v
  /-- the entries, and then empty entries -/
  root : v.fileBytes (v.dinode ROOTINO) 0 (v.dinode ROOTINO).size = (rootEntries files).flatten ++
    List.replicate ((v.dinode ROOTINO).size - 16 * (files.length + 2)) 0

section WellFormed

variable {files : List Input} {s : Image} {x n : Nat}

theorem bitClear_usedBits (k : Nat) :
    ∀ {n : Nat}, n ≤ 8 * BSIZE → ((usedBits n).bitClear k = true ↔ n ≤ k) := by
  intro n
  induction n with
  | zero =>
    intro _
    rw [usedBits, Bytes.bitClear_eq, Bytes.byte_zero]
    simp
  | succ n ih =>
    intro small
    rw [usedBits, Bytes.bitClear_setBit _ small, ih (by omega)]
    omega

/-- A block of the image is free above the ones that were handed out. -/
theorem Finished.free_iff (finished : Finished files s) {b : Nat} (inside : b < FSSIZE) :
    s.vol.Free b ↔ s.freeblock ≤ b := by
  have map : BBLOCK b sb = sb.bmapstart := by
    simp only [BBLOCK, BPB, BSIZE, FSSIZE] at *
    omega
  have bit : b % BPB = b := by
    simp only [BPB, BSIZE, FSSIZE] at *
    omega
  have few : s.freeblock ≤ 8 * BSIZE := Nat.le_trans finished.full (by decide)
  unfold Vol.Free
  rw [Image.sb_vol, map, bit, Image.buf_vol, finished.bitmap, bitClear_usedBits b few]

theorem contentsOf_free (free : (headOf files x).1 = 0) : contentsOf files x = [] := by
  unfold headOf at free
  split at free
  · cases free
  · rename_i notRoot
    split at free
    · cases free
    · rename_i other
      rw [contentsOf, if_neg notRoot]
      split
      · rfl
      · rw [List.getElem?_eq_none (by omega)]
        rfl

theorem Finished.owner_eq (finished : Finished files s) :
    s.vol.owner s.vol.dinode = s.own s.vol.dinode := by
  funext p
  obtain ⟨x, m⟩ := p
  ext b
  rw [Vol.owner_eq_some, own_eq_some]
  refine ⟨fun all => ⟨all.1, all.2.2⟩, fun all => ⟨all.1, fun free => ?_, all.2⟩⟩
  -- an inode without a type has no content, and so no blocks
  have head := finished.heads x all.1
  have empty : contentsOf files x = [] := contentsOf_free (by rw [← head]; exact free)
  have index : m < NDIRECT + 1 + NINDIRECT := by
    by_contra outside
    refine all.2.2 (all.2.1.symm.trans ?_)
    unfold Vol.Dinode.slot
    rw [dif_neg (by omega), if_neg (by omega)]
  refine all.2.2 (all.2.1.symm.trans (finished.built.slot_eq_zero all.1 index ?_))
  rw [plans, empty]
  exact Plan.not_has_nil m

theorem Finished.fileBytes_eq (finished : Finished files s) (inside : x < NINODES)
    (long : (contentsOf files x).length ≤ n) : s.vol.fileBytes (s.vol.dinode x) 0 n =
      contentsOf files x ++ List.replicate (n - (contentsOf files x).length) 0 := by
  unfold Vol.fileBytes
  refine List.ext_getElem ?_ fun k small _ => ?_
  · rw [List.length_map, List.length_range, List.length_append, List.length_replicate]
    omega
  · rw [List.length_map, List.length_range] at small
    rw [List.getElem_map, List.getElem_range, Nat.zero_add, finished.built.bytes x inside]
    show (contentsOf files x).getD k 0 = _
    by_cases here : k < (contentsOf files x).length
    · rw [List.getElem_append_left here]
      exact List.getD_eq_getElem _ _ here
    · rw [List.getElem_append_right (by omega), List.getElem_replicate]
      exact List.getD_eq_default _ _ (by omega)

theorem Finished.full_dinode (finished : Finished files s) (uneven : (files.length + 2) % 64 ≠ 0)
    (inside : x < NINODES) (below : n * BSIZE < (s.vol.dinode x).size) :
    (s.vol.dinode x).slot s.vol.entry (Vol.fileSlot n) ≠ 0 := by
  refine finished.built.slot_fileSlot_ne_zero inside (finished.small x inside) ?_
  rw [finished.sizes x inside] at below
  split at below
  · rename_i root
    rw [root, length_root]
    simp only [rootSize, BSIZE] at *
    omega
  · simp only [BSIZE] at *
    omega

theorem Finished.owned (finished : Finished files s) (uneven : (files.length + 2) % 64 ≠ 0) :
    Vol.Owned s.vol.dinode s.vol := by
  have start : sb.dataStart = nmeta := rfl
  have ends : sb.size = FSSIZE := rfl
  refine {
    layout := layout
    owns := ?_
    marked := fun b low => ?_
    full := fun x inside alive n below => ?_
    clean := fun b dirty => absurd rfl dirty.2 }
  · rw [finished.owner_eq]
    refine ⟨finished.built.owns.once, fun {p b} held => ?_, fun {b} inside => ?_⟩
    · have bounds := finished.built.own_lt held
      exact ⟨start ▸ bounds.1, Nat.lt_of_lt_of_le bounds.2 finished.full⟩
    · rw [finished.free_iff (ends ▸ inside.2)]
      exact finished.built.owns.free_iff (start ▸ inside.1)
  · rw [Image.sb_vol, start] at low
    have first := finished.built.freeblock_ge
    have small : nmeta ≤ FSSIZE := by decide
    rw [finished.free_iff (by omega)]
    omega
  · rw [Option.ne_none_iff_exists']
    exact ⟨_, Vol.owner_eq_some.mpr ⟨inside, alive, rfl, finished.full_dinode uneven inside below⟩⟩

theorem Finished.wellFormed (finished : Finished files s) (few : files.length + 2 ≤ NINODES)
    (uneven : (files.length + 2) % 64 ≠ 0) : WellFormed files s.vol := by
  have root : ROOTINO < NINODES := by decide
  refine ⟨rfl, few, finished.heads, fun k f at_ => ?_, finished.owned uneven, ?_⟩
  · have below : k < files.length := (List.getElem?_eq_some_iff.mp at_).1
    have notRoot : k + 2 ≠ ROOTINO := by
      unfold ROOTINO
      omega
    have inside : k + 2 < NINODES := by omega
    have content : contentsOf files (k + 2) = f.bytes := by
      rw [contentsOf, if_neg notRoot, if_neg (by omega), Nat.add_sub_cancel, at_]
      rfl
    have size := finished.sizes (k + 2) inside
    have bytes := finished.fileBytes_eq inside (Nat.le_refl _)
    rw [if_neg notRoot, content] at size
    rw [content, Nat.sub_self, List.replicate_zero, List.append_nil] at bytes
    exact ⟨size, bytes⟩
  · have size := finished.sizes ROOTINO root
    rw [if_pos rfl] at size
    have long : (contentsOf files ROOTINO).length ≤ rootSize files := by
      rw [length_root]
      simp only [rootSize, BSIZE]
      omega
    rw [size, finished.fileBytes_eq root long, length_root, contentsOf, if_pos rfl]

/-- **The hole**: where the entries fill whole blocks, the size of the root directory has one more.
-/
theorem Finished.hole (finished : Finished files s) (few : files.length + 2 ≤ NINODES)
    (even : (files.length + 2) % 64 = 0) :
    (files.length + 2) / 64 * BSIZE < (s.vol.dinode ROOTINO).size ∧
      (s.vol.dinode ROOTINO).slot s.vol.entry (Vol.fileSlot ((files.length + 2) / 64)) = 0 := by
  have root : ROOTINO < NINODES := by decide
  have direct : (files.length + 2) / 64 < NDIRECT := by
    simp only [NINODES, NDIRECT] at *
    omega
  constructor
  · rw [finished.sizes ROOTINO root, if_pos rfl]
    simp only [rootSize, BSIZE]
    omega
  · refine finished.built.slot_eq_zero root ?_ ?_
    · rw [Vol.fileSlot, if_pos direct]
      omega
    · rw [Plan.has_fileSlot]
      show ¬ _ < ((contentsOf files ROOTINO).length + BSIZE - 1) / BSIZE
      rw [length_root]
      simp only [BSIZE]
      omega

end WellFormed

/-- **`mkfs` produces a well-formed image** exactly for the lists of at most 198 files whose
entries, with `.` and `..`, do not fill whole blocks of the root directory. -/
theorem mkfs_wellFormed (files : List Input) {image : Image}
    (done : main files start = .ok ((), image)) :
    WellFormed files (.boot (readsb (image.disk 1)) image.disk) ↔
      files.length + 2 ≤ NINODES ∧ (files.length + 2) % 64 ≠ 0 := by
  have here (few : files.length + 2 ≤ NINODES) : Finished files image ∧
    readsb (image.disk 1) = sb := by
    have finished : Finished files image := (main_spec few).ok rfl done
    rw [finished.built.super, readsb_superblock]
    exact ⟨finished, rfl⟩
  constructor
  · intro wellFormed
    have few : files.length + 2 ≤ NINODES := by
      have numbers := wellFormed.numbers
      rwa [wellFormed.super] at numbers
    obtain ⟨finished, super⟩ := here few
    rw [super] at wellFormed
    refine ⟨few, fun even => ?_⟩
    obtain ⟨below, zero⟩ := finished.hole few even
    have root := wellFormed.heads ROOTINO (show ROOTINO < NINODES by decide)
    have isDir : ((Vol.boot sb image.disk).dinode ROOTINO).type = T_DIR := congrArg Prod.fst root
    have alive : ((Vol.boot sb image.disk).dinode ROOTINO).type ≠ 0 := isDir ▸ by decide
    obtain ⟨b, owned⟩ := Option.ne_none_iff_exists'.mp
      (wellFormed.owned.full ROOTINO (show ROOTINO < NINODES by decide) alive _ below)
    exact (Vol.owner_eq_some.mp owned).2.2.2 ((Vol.owner_eq_some.mp owned).2.2.1.symm.trans zero)
  · rintro ⟨few, uneven⟩
    obtain ⟨finished, super⟩ := here few
    rw [super]
    exact finished.wellFormed few uneven

theorem Ready.main (files : List Input) (few : files.length + 2 ≤ NINODES) (ready : Ready files) :
    ∃ image, Mkfs.main files start = .ok ((), image) ∧ Finished files image := by
  cases done : Mkfs.main files start with
  | error e => exact absurd ready ((main_spec few).error rfl done)
  | ok result => exact ⟨result.2, rfl, (main_spec few).ok rfl done⟩

def smallFiles (n : Nat) : List Input :=
  (List.range n).map fun k => ⟨[0x61, BitVec.ofNat 8 (0x30 + k)], some [[7]]⟩

theorem smallFiles_ready : Ready (smallFiles 62) :=
  ⟨by decide +kernel, by decide +kernel, by decide +kernel⟩

theorem mkfs_wellFormed_five : ∃ image, main (smallFiles 5) start = .ok ((), image) ∧
    WellFormed (smallFiles 5) (.boot (readsb (image.disk 1)) image.disk) := by
  have more : smallFiles 62 = smallFiles 5 ++ (smallFiles 62).drop 5 := rfl
  have ready : Ready (smallFiles 5) := Ready.of_append (more ▸ smallFiles_ready)
  obtain ⟨image, done, -⟩ := Ready.main _ (by decide) ready
  exact ⟨image, done, (mkfs_wellFormed (smallFiles 5) done).mpr (by decide)⟩

/-- **The root directory can have a hole.** With 62 files the 64 entries fill one block; its size is
set to two blocks, and the second one is missing. -/
theorem mkfs_hole : ∃ image, main (smallFiles 62) start = .ok ((), image) ∧
    (∀ f ∈ smallFiles 62, f.name ≠ [] ∧ slash ∉ f.name) ∧
    ((smallFiles 62).map fun f => f.name.take DIRSIZ).Nodup ∧
    (let v : Vol := .boot (readsb (image.disk 1)) image.disk
    1 * BSIZE < (v.dinode ROOTINO).size ∧ (v.dinode ROOTINO).slot v.entry (Vol.fileSlot 1) =
    0) := by
  obtain ⟨image, done, finished⟩ := Ready.main _ (by decide) smallFiles_ready
  refine ⟨image, done, by decide +kernel, by decide +kernel, ?_⟩
  rw [finished.built.super, readsb_superblock]
  exact finished.hole (by decide) (by decide)

end Xv6.Mkfs
