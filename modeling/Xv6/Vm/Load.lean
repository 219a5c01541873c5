/-
**Loading a program** (`kernel/exec.c`: `loadseg`, and the loop over the program headers).

While `exec` builds a new address space, `Loading` says what it has so far: user pages below the
size, all of them accessible, with the bytes of `img`, and zero where nothing has been loaded.
`uvmalloc` adds zeroed pages and keeps `img`; `loadseg` puts bytes of the file into it.

* `loadseg_spec`: one segment;
* `loadHeaders_spec`: all of them, and what the program headers then satisfy.
-/

import Xv6.Vm.Exec

set_option linter.unusedSectionVars false

namespace Xv6.Vm

open Lib

/-! ### Reading the file -/

section Reading

variable {f : File} {off n : Nat}

theorem File.readi_full (some : 0 < n) (small : n < 2 ^ 31) (all : (f.readi off n).length = n) :
    off + n ≤ f.size ∧ f.readi off n = (List.range n).map fun j => f.byte (off + j) := by
  have size : f.size < 2 ^ 31 := Nat.lt_of_le_of_lt f.small (by decide)
  unfold readi at all ⊢
  by_cases outside : off > f.size ∨ (off + n) % 2 ^ 32 < off
  · rw [if_pos outside] at all
    have : 0 = n := all
    omega
  · rw [if_neg outside] at all ⊢
    dsimp only at all ⊢
    rw [List.length_map, List.length_range] at all
    rw [all]
    refine ⟨?_, rfl⟩
    split at all <;> omega

theorem File.readi_length_le (f : File) (off n : Nat) : (f.readi off n).length ≤ n := by
  have size : f.size < 2 ^ 31 := Nat.lt_of_le_of_lt f.small (by decide)
  unfold readi
  by_cases outside : off > f.size ∨ (off + n) % 2 ^ 32 < off
  · rw [if_pos outside]
    exact Nat.zero_le n
  · rw [if_neg outside]
    dsimp only
    rw [List.length_map, List.length_range]
    split <;> omega

def File.proghdr (f : File) (off : Nat) : Proghdr := Proghdr.decode fun i => f.byte (off + i)

/-- The program headers from an offset on. -/
def File.headers (f : File) (off n : Nat) : List Proghdr :=
  (List.range n).map fun i => f.proghdr (off + PROGHDR_SIZE * i)

theorem File.headers_succ (f : File) (off n : Nat) :
    f.headers off (n + 1) = f.proghdr off :: f.headers (off + PROGHDR_SIZE) n := by
  unfold headers
  rw [List.range_succ_eq_map, List.map_cons, List.map_map]
  congr 1
  refine List.map_congr_left fun i _ => ?_
  simp only [Function.comp_apply, Nat.mul_succ]
  congr 1
  omega

theorem File.proghdr_lt (f : File) (off : Nat) :
    (f.proghdr off).vaddr < 2 ^ 64 ∧ (f.proghdr off).memsz < 2 ^ 64 := by
  have field : ∀ a, Memory.le 8 (fun i => f.byte (off + i)) a < 2 ^ 64 := by
    intro a
    have := Memory.le_lt (fun i => f.byte (off + i)) 8 a
    omega
  unfold proghdr Proghdr.decode
  exact ⟨field 16, field 40⟩

theorem bytesAt_map {m : Nat → Byte} {i : Nat} (inside : i < n) :
    bytesAt ((List.range n).map m) i = m i := by
  unfold bytesAt
  rw [List.getD_eq_getElem?_getD, List.getElem?_map, List.getElem?_range inside]
  rfl

theorem File.decode_proghdr :
    Proghdr.decode (bytesAt ((List.range PROGHDR_SIZE).map fun j => f.byte (off + j))) =
    f.proghdr off := by
  have field : ∀ a k, a + k ≤ PROGHDR_SIZE →
      Memory.le k (bytesAt ((List.range PROGHDR_SIZE).map fun j => f.byte (off + j))) a =
        Memory.le k (fun i => f.byte (off + i)) a := fun a k inside =>
    Memory.le_congr fun x _ high => bytesAt_map (by omega)
  unfold File.proghdr Proghdr.decode
  rw [field 0 4 (by decide), field 8 8 (by decide), field 16 8 (by decide), field 32 8 (by decide),
    field 40 8 (by decide)]

end Reading

section Load

variable [KernelImage] {area live : Nat → Prop} {root trapframe sz n va : Nat} {s₀ s t u : Ram}
  {img : Memory}
  {f : File} {fails : VmPanic → Prop}

/-- **The new address space**: its bytes are those of `img`, and nothing has been written outside
`area`. -/
structure Image (area : Nat → Prop) (root trapframe : Nat) (s₀ : Ram) (img : Memory) (sz : Nat)
    (s : Ram) : Prop where
  space : Space area root (fun v => v < npages sz) (procExtra trapframe) s
  mem : ∀ x, Outside area x → s.mem x = s₀.mem x
  bytes : ∀ a < npages sz * PGSIZE, s.mem (s.uaddr root a) = img a

/-- **What has been loaded so far**: the user can access all pages, and the rest of `img` is zero.
-/
structure Loading (area : Nat → Prop) (root trapframe : Nat) (s₀ : Ram) (img : Memory) (sz : Nat)
    (s : Ram) : Prop
    extends Image area root trapframe s₀ img sz s where
  user : ∀ v < npages sz, s.pte root v = leafPte (s.page root v) RWXU
  beyond : ∀ a, npages sz * PGSIZE ≤ a → img a = 0

theorem page_lt {a : Nat} (below : a < n * PGSIZE) : a / PGSIZE < n :=
  Nat.div_lt_of_lt_mul (by rwa [Nat.mul_comm])

theorem le_npages_mul (sz : Nat) : sz ≤ npages sz * PGSIZE := by
  unfold npages
  simp only [PGSIZE]
  omega

theorem Keeps.bytes {a : Nat} (keeps : Keeps area root live s t) (isLive : live (a / PGSIZE)) :
    t.mem (t.uaddr root a) = s.mem (s.uaddr root a) := by
  have same : t.uaddr root a = s.uaddr root a := by
    unfold Ram.uaddr
    rw [keeps.page isLive]
  rw [same]
  exact keeps.user _ isLive _ (inPage_uaddr s root a)

theorem Image.bound (image : Image area root trapframe s₀ img sz s) :
    npages sz * PGSIZE ≤ 2 ^ 27 := by
  have := Nat.mul_le_mul_right PGSIZE (image.space.few fun v below => below)
  rwa [FRAMES_mul] at this

theorem Image.written {bytes : List Byte} (image : Image area root trapframe s₀ img sz s)
    (written : Written root va bytes s t) (fits : va + bytes.length ≤ npages sz * PGSIZE) :
    Image area root trapframe s₀ (img.write va bytes) sz t ∧ ∀ v, t.pte root v = s.pte root v := by
  have users : ∀ i < bytes.length, (va + i) / PGSIZE < npages sz :=
    fun i below => page_lt (by omega)
  obtain ⟨space, ptes⟩ := image.space.written written users
  refine ⟨⟨space, fun x outside => ?_, fun a below => ?_⟩, ptes⟩
  · rw [written.outside x fun i inside isX => ?_]
    · exact image.mem x outside
    · subst isX
      exact outside _ (image.space.user _ (users i inside)).1 (inPage_uaddr s root (va + i))
  · rw [uaddr_congr ptes]
    by_cases inside : va ≤ a ∧ a < va + bytes.length
    · obtain ⟨k, rfl⟩ := Nat.exists_eq_add_of_le inside.1
      have below : k < bytes.length := by omega
      rw [Memory.write_inside below]
      exact written.inside k _ (List.getElem?_eq_getElem below)
    · rw [Memory.write_outside (by omega), ← image.bytes a below]
      refine written.outside _ fun i within same => inside ?_
      have := image.space.uaddr_inj (page_lt below) (users i within) same
      omega

namespace Loading

section

variable (loading : Loading area root trapframe s₀ img sz s)

include loading

theorem keep (space : Space area root (fun v => v < npages sz) (procExtra trapframe) t)
    (keeps : Keeps area root (fun v => v < npages sz) s t) :
    Loading area root trapframe s₀ img sz t where
  space := space
  mem x outside := (keeps.mem x outside).trans (loading.mem x outside)
  user v below := by
    rw [keeps.page below, keeps.pte v below]
    exact loading.user v below
  bytes a below := (keeps.bytes (page_lt below)).trans (loading.bytes a below)
  beyond := loading.beyond

theorem grow {newsz : Nat}
    (space : Space area root (fun v => v < npages newsz) (procExtra trapframe) t)
    (keeps : Keeps area root (fun v => v < npages sz) s t) (more : npages sz ≤ npages newsz)
    (fresh : ∀ v, npages sz ≤ v → v < npages newsz → Fresh t root v) :
    Loading area root trapframe s₀ img newsz t where
  space := space
  mem x outside := (keeps.mem x outside).trans (loading.mem x outside)
  user v below := by
    by_cases old : v < npages sz
    · rw [keeps.page old, keeps.pte v old]
      exact loading.user v old
    · exact (fresh v (by omega) below).pte
  bytes a below := by
    by_cases old : a < npages sz * PGSIZE
    · exact (keeps.bytes (page_lt old)).trans (loading.bytes a old)
    · have page : npages sz ≤ a / PGSIZE := (Nat.le_div_iff_mul_le (by decide)).mpr (by omega)
      rw [loading.beyond a (by omega)]
      exact (fresh _ page (page_lt below)).zero _ (inPage_uaddr t root a)
  beyond a high := loading.beyond a (Nat.le_trans (Nat.mul_le_mul_right _ more) high)

theorem write {bytes : List Byte} (written : Written root va bytes s t)
    (fits : va + bytes.length ≤ npages sz * PGSIZE) :
    Loading area root trapframe s₀ (img.write va bytes) sz t := by
  obtain ⟨image, ptes⟩ := loading.toImage.written written fits
  refine ⟨image, fun v below => ?_, fun a high => ?_⟩
  · unfold Ram.page
    rw [ptes]
    exact loading.user v below
  · rw [Memory.write_outside (by omega)]
    exact loading.beyond a high

theorem userPage {v : Nat} (below : v < npages sz) : s.UserPage root v := by
  unfold Ram.UserPage
  rw [loading.user v below]
  exact ⟨leafPte_valid (by decide), by rw [leafPte_and_PTE_U (by decide)]; decide⟩

theorem uvmalloc (newsz : Nat) : From s (uvmalloc root sz newsz)
      (fun r t => r = 0 ∧ Loading area root trapframe s₀ img sz t ∨
        r ≠ 0 ∧ r = max sz newsz ∧ Loading area root trapframe s₀ img r t) fails := by
  by_cases smaller : newsz < sz
  · refine .ite (fun _ => .done (.inr ?_)) fun no => absurd smaller no
    exact ⟨by omega, by omega, loading⟩
  · refine (uvmalloc_spec loading.space procExtra_clear (by omega)).to_post ?_
    rintro r t (⟨rfl, space, keeps, fresh⟩ | ⟨rfl, space, keeps⟩)
    · have more := npages_mono (show sz ≤ r by omega)
      have loading' : Loading area root trapframe s₀ img r t :=
        loading.grow (space.with_live fun v => by omega) keeps more fresh
      by_cases zero : r = 0
      · obtain rfl : sz = r := by omega
        exact .inl ⟨zero, loading'⟩
      · exact .inr ⟨zero, by omega, loading'⟩
    · exact .inl ⟨rfl, loading.keep space keeps⟩

end

end Loading

/-! ### One segment -/

/-- `n` bytes of the file, from `offset` on, at `va`. -/
def File.segment (f : File) (img : Memory) (va offset n : Nat) : Memory :=
  fun a => if va ≤ a ∧ a < va + n then f.byte (offset + (a - va)) else img a

theorem File.segment_zero (f : File) (img : Memory) (va offset : Nat) :
    f.segment img va offset 0 = img :=
  funext fun _ => if_neg (by omega)

theorem File.segment_add (f : File) (img : Memory) (va offset i n : Nat) :
    (f.segment img va offset i).write (va + i)
      ((List.range n).map fun j => f.byte (offset + i + j)) =
      f.segment img va offset (i + n) := by
  have length : ((List.range n).map fun j => f.byte (offset + i + j)).length = n := by
    rw [List.length_map, List.length_range]
  funext a
  by_cases inside : va + i ≤ a ∧ a < va + i + n
  · obtain ⟨k, rfl⟩ := Nat.exists_eq_add_of_le inside.1
    rw [Memory.write_inside (by omega), List.getElem_map, List.getElem_range, File.segment,
      if_pos (by omega)]
    congr 1
    omega
  · rw [Memory.write_outside (by omega), File.segment, File.segment]
    refine if_congr ?_ rfl rfl
    omega

/-- **The loop of `loadseg`**: the pages exist, so it does not panic, and if no read is short, the
segment lies in the file and its bytes are there. -/
theorem loadsegLoop_spec {offset filesz : Nat} (aligned : va % PGSIZE = 0)
    (fits : va + filesz ≤ npages sz * PGSIZE) (narrow : offset < 2 ^ 32) :
    ∀ {fuel i : Nat} {s : Ram},
    filesz < (fuel + i) * PGSIZE → (0 < i → offset + min (i * PGSIZE) filesz ≤ f.size) →
    Loading area root trapframe s₀ (f.segment img va offset (min (i * PGSIZE) filesz)) sz s →
    From s (loadsegLoop root va f offset filesz fuel (i * PGSIZE))
      (fun r t => r = 0 ∧ Loading area root trapframe s₀ (f.segment img va offset filesz) sz t ∧
          (0 < filesz → offset + filesz ≤ f.size) ∨
        r = -1 ∧ ∃ img', Loading area root trapframe s₀ img' sz t) fails := by
  have page : PGSIZE = 4096 := rfl
  have size : f.size < 2 ^ 31 := Nat.lt_of_le_of_lt f.small (by decide)
  -- what has been loaded when the loop ends
  have finished : ∀ {i : Nat} {s : Ram}, filesz ≤ i * PGSIZE →
      (0 < i → offset + min (i * PGSIZE) filesz ≤ f.size) →
      Loading area root trapframe s₀ (f.segment img va offset (min (i * PGSIZE) filesz)) sz s →
      Loading area root trapframe s₀ (f.segment img va offset filesz) sz s ∧
        (0 < filesz → offset + filesz ≤ f.size) := by
    intro i s last within loading
    rw [Nat.min_eq_right last] at within loading
    exact ⟨loading, fun positive => within (by
      by_contra none
      rw [Nat.eq_zero_of_not_pos none] at last
      omega)⟩
  intro fuel
  induction fuel with
  | zero =>
    intro i s enough within loading
    refine .done (.inl ⟨rfl, ?_⟩)
    exact finished (by rw [Nat.zero_add] at enough; omega) within loading
  | succ fuel ih =>
    intro i s enough within loading
    refine .ite (fun more => ?_) fun last => ?_
    · have total := loading.bound
      have start : (offset + i * PGSIZE) % 2 ^ 32 = offset + i * PGSIZE := by
        refine Nat.mod_eq_of_lt ?_
        by_cases first : i = 0
        · subst first
          omega
        · have := within (Nat.pos_of_ne_zero first)
          omega
      rw [Nat.min_eq_left (Nat.le_of_lt more)] at loading
      have address : (va + i * PGSIZE) % 2 ^ 64 = va + i * PGSIZE := Nat.mod_eq_of_lt (by omega)
      have inPage : (va + i * PGSIZE) % PGSIZE = 0 := by
        rw [Nat.add_mul_mod_self_right]
        exact aligned
      have live : (va + i * PGSIZE) / PGSIZE < npages sz := page_lt (by omega)
      have walks : (s.userMem root).walkaddr (va + i * PGSIZE) = true := by
        unfold UserMem.walkaddr
        rw [Bool.and_eq_true, decide_eq_true_iff]
        have large : 2 ^ 27 < MAXVA := by decide
        exact ⟨by omega, decide_eq_true (loading.userPage live)⟩
      refine .bind (walkaddr_user (loading.space.nonzero procExtra_quiet)) fun pa =>
        Triple.each fun t outcome => ?_
      rw [address] at outcome
      obtain ⟨rfl, ⟨_, isPage, found⟩ | ⟨stops, _⟩⟩ := outcome
      · refine .ite (fun zero => absurd zero found) fun _ => ?_
        have isPa : pa = t.uaddr root (va + i * PGSIZE) := by
          rw [Ram.uaddr, inPage, isPage, Nat.add_zero]
        rw [start]
        generalize isN : (if filesz - i * PGSIZE < PGSIZE then filesz - i * PGSIZE else PGSIZE) = n
        have piece : n = min (filesz - i * PGSIZE) PGSIZE := by
          rw [← isN]
          split <;> omega
        have short := f.readi_length_le (offset + i * PGSIZE) n
        have loaded : Loading area root trapframe s₀ _ sz
            { t with mem := t.mem.write pa (f.readi (offset + i * PGSIZE) n) } :=
          loading.write (isPa ▸ Written.page (by omega)) (by omega)
        refine .modify_known (.ite (fun _ => .done ?_) fun all => ?_)
        · exact .inr ⟨rfl, _, loaded⟩
        · obtain ⟨inside, isBytes⟩ := File.readi_full (by omega) (by omega) (not_not.mp all)
          rw [isBytes, File.segment_add] at loaded
          have next : (i * PGSIZE + PGSIZE) % 2 ^ 32 = (i + 1) * PGSIZE := by
            rw [Nat.succ_mul]
            exact Nat.mod_eq_of_lt (by omega)
          have sofar : i * PGSIZE + n = min ((i + 1) * PGSIZE) filesz := by
            rw [Nat.succ_mul]
            omega
          rw [next, isBytes]
          rw [sofar] at loaded
          refine ih (by rw [Nat.add_assoc, Nat.add_comm 1 i] at enough; exact enough)
            (fun _ => ?_) loaded
          rw [← sofar]
          omega
      · rw [walks] at stops
        cases stops
    · exact .done (.inl ⟨rfl, finished (Nat.le_of_not_lt last) within loading⟩)

theorem loadseg_spec {offset filesz : Nat} (aligned : va % PGSIZE = 0)
    (fits : va + filesz ≤ npages sz * PGSIZE) (narrow : offset < 2 ^ 32)
    (loading : Loading area root trapframe s₀ img sz s) :
    From s (loadseg root va f offset filesz)
      (fun r t => r = 0 ∧ Loading area root trapframe s₀ (f.segment img va offset filesz) sz t ∧
          (0 < filesz → offset + filesz ≤ f.size) ∨
        r = -1 ∧ ∃ img', Loading area root trapframe s₀ img' sz t) fails := by
  have :=
    @loadsegLoop_spec _ area root trapframe sz va s₀ img f fails offset filesz aligned fits narrow
    (filesz / PGSIZE + 1) 0 s (Nat.lt_mul_of_div_lt (Nat.lt_succ_self _) (by decide))
    (fun some => absurd some (by decide))
    (by rwa [Nat.zero_mul, Nat.zero_min, File.segment_zero])
  rwa [Nat.zero_mul] at this

/-! ### The program headers -/

def File.image (f : File) : List Proghdr → Memory → Memory
  | [], img => img
  | ph :: rest, img =>
    f.image rest (if ph.type = ELF_PROG_LOAD then f.segment img ph.vaddr (ph.off % 2 ^ 32) ph.filesz
      else img)

/-- What `exec` has checked of a segment, where `sz` is the size of the program. -/
structure Checked (f : File) (sz : Nat) (ph : Proghdr) : Prop where
  filesz : ph.filesz ≤ ph.memsz
  fits : ph.vaddr + ph.memsz ≤ sz
  aligned : ph.vaddr % PGSIZE = 0
  inside : 0 < ph.filesz → ph.off % 2 ^ 32 + ph.filesz ≤ f.size

theorem Checked.mono {sz' : Nat} {ph : Proghdr} (checked : Checked f sz ph) (more : sz ≤ sz') :
    Checked f sz' ph :=
  ⟨checked.filesz, Nat.le_trans checked.fits more, checked.aligned, checked.inside⟩

/-- How the loop over the program headers ends, where `n` headers from `off` on are left. -/
inductive HeadersEnd (area : Nat → Prop) (root trapframe : Nat) (s₀ : Ram) (f : File) (img : Memory)
    (n off sz : Nat) : Bool × Nat → Ram → Prop
  | loaded {sz' : Nat} {t : Ram} :
    Loading area root trapframe s₀ (f.image (f.headers off n) img) sz' t → sz ≤ sz' →
      (0 < n → off + PROGHDR_SIZE * n ≤ f.size) →
      (∀ ph ∈ f.headers off n, ph.type = ELF_PROG_LOAD → Checked f sz' ph) →
      HeadersEnd area root trapframe s₀ f img n off sz (true, sz') t
  | bad {sz' : Nat} {t : Ram} {img' : Memory} : Loading area root trapframe s₀ img' sz' t →
      HeadersEnd area root trapframe s₀ f img n off sz (false, sz') t

theorem HeadersEnd.cons {off sz₁ : Nat} {img₁ : Memory} {r : Bool × Nat} (more : sz ≤ sz₁)
    (inside : off + PROGHDR_SIZE ≤ f.size)
    (checked : (f.proghdr off).type = ELF_PROG_LOAD → Checked f sz₁ (f.proghdr off))
    (image : f.image (f.proghdr off :: f.headers (off + PROGHDR_SIZE) n) img =
      f.image (f.headers (off + PROGHDR_SIZE) n) img₁)
    (ends : HeadersEnd area root trapframe s₀ f img₁ n (off + PROGHDR_SIZE) sz₁ r t) :
    HeadersEnd area root trapframe s₀ f img (n + 1) off sz r t := by
  cases ends with
  | @loaded sz' _ loading most within all =>
    refine .loaded ?_ (Nat.le_trans more most) (fun _ => ?_) ?_
    · rwa [f.headers_succ, image]
    · rw [Nat.mul_succ]
      rcases Nat.eq_zero_or_pos n with rfl | positive
      · exact inside
      · have := within positive
        omega
    · intro ph member isLoad
      rw [f.headers_succ] at member
      rcases List.mem_cons.mp member with rfl | later
      · exact (checked isLoad).mono most
      · exact all ph later isLoad
  | bad loading => exact .bad loading

theorem loadHeaders_spec : ∀ {n off sz : Nat} {img : Memory} {s : Ram}, off < 2 ^ 32 →
    Loading area root trapframe s₀ img sz s →
    From s (loadHeaders root f n off sz)
      (HeadersEnd area root trapframe s₀ f img n off sz) fails := by
  have size : f.size < 2 ^ 31 := Nat.lt_of_le_of_lt f.small (by decide)
  intro n
  induction n with
  | zero =>
    intro off sz img s _ loading
    exact .done (.loaded loading (Nat.le_refl _) (absurd · (Nat.lt_irrefl 0)) nofun)
  | succ n ih =>
    intro off sz img s narrow loading
    have bad {sz' : Nat} {img' : Memory} {t : Ram}
      (loading : Loading area root trapframe s₀ img' sz' t) :
        From t (pure (false, sz') : VmM (Bool × Nat))
          (HeadersEnd area root trapframe s₀ f img (n + 1) off sz) fails :=
      .done (.bad loading)
    refine .ite (fun _ => bad loading) fun all => ?_
    obtain ⟨inside, isBytes⟩ := File.readi_full (by decide) (by decide) (not_not.mp all)
    have next : (off + PROGHDR_SIZE) % 2 ^ 32 = off + PROGHDR_SIZE := Nat.mod_eq_of_lt (by omega)
    rw [isBytes, File.decode_proghdr, next]
    generalize isPh : f.proghdr off = ph
    refine .ite (fun other => ?_) fun isLoad => ?_
    · refine (ih (by omega) loading).to_post fun r t ends => ?_
      refine ends.cons (Nat.le_refl _) inside (fun isLoad => absurd (isPh ▸ isLoad) other) ?_
      rw [File.image, if_neg (isPh ▸ other)]
    · refine .ite (fun _ => bad loading) fun larger => ?_
      refine .ite (fun _ => bad loading) fun unwrapped => ?_
      refine .bind (loading.uvmalloc _) fun sz1 => .each fun t outcome => ?_
      rcases outcome with ⟨rfl, loading₁⟩ | ⟨grown, isSz, loading₁⟩
      · exact .ite (fun _ => bad loading₁) fun nonzero => absurd rfl nonzero
      · refine .ite (fun zero => absurd zero grown) fun _ => ?_
        refine .ite (fun _ => bad loading₁) fun aligned => ?_
        have most := loading₁.space.size_le
        rw [FRAMES_mul] at most
        have wide : ph.vaddr < 2 ^ 64 ∧ ph.memsz < 2 ^ 64 := isPh ▸ f.proghdr_lt off
        have sum : (ph.vaddr + ph.memsz) % 2 ^ 64 = ph.vaddr + ph.memsz := by omega
        rw [sum] at isSz
        have filesz : ph.filesz % 2 ^ 32 = ph.filesz := Nat.mod_eq_of_lt (by omega)
        have pages := le_npages_mul sz1
        rw [filesz]
        refine .bind
          (loadseg_spec (not_not.mp aligned) (by omega) (Nat.mod_lt _ (by decide)) loading₁)
          fun r => .each fun t outcome => ?_
        rcases outcome with ⟨rfl, loading₂, within⟩ | ⟨rfl, img', loading₂⟩
        · refine .ite (fun negative => absurd negative (by decide)) fun _ => ?_
          refine (ih (by omega) loading₂).to_post fun r t ends => ?_
          refine ends.cons (by omega) inside (fun _ => ?_) ?_
          · rw [isPh]
            exact ⟨by omega, by omega, not_not.mp aligned, within⟩
          · rw [File.image, isPh, if_pos (not_not.mp isLoad)]
        · exact .ite (fun _ => bad loading₂) fun no => absurd (by decide) no

end Load

end Xv6.Vm
