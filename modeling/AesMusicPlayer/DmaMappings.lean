-- The buffers that processes map from the DMA driver, and the address that the driver gives
-- to the engine for the address that a transfer names. The driver does not keep which process
-- a buffer belongs to.
import AesMusicPlayer.DmaChannels
import AesMusicPlayer.Traces
import Mathlib.Algebra.Group.Int.Defs
import Mathlib.Algebra.Group.Nat.Defs
import Mathlib.Data.List.Pairwise

open traces

namespace axidma

abbrev Address := BitVec 32

/-! ## The list of the buffers -/

/-- `struct axidma_dma_allocation`, as far as a translation reads it. -/
structure Allocation where
  size : BitVec 32
  user_addr : Address
  dma_addr : Address

/-- The additions of the pointers wrap. -/
def valid_dma_request (dma_start : Address) (dma_size : BitVec 32) (user_addr : Address)
    (user_size : BitVec 32) : Bool :=
  decide (dma_start ≤ user_addr) && decide (user_addr + user_size ≤ dma_start + dma_size)

/-- The address in the first buffer of the list that takes the request, and zero for none. -/
def axidma_uservirt_to_dma (dmabuf_list external_dmabufs : List Allocation) (user_addr : Address)
    (size : BitVec 32) : Address :=
  let valid (a : Allocation) := valid_dma_request a.user_addr a.size user_addr size
  match dmabuf_list.find? valid with
  | some a => a.dma_addr + (user_addr - a.user_addr)
  | none =>
    match external_dmabufs.find? valid with
    | some a => a.dma_addr + (user_addr - a.user_addr)
    | none => 0

/-- The address and the length that the engine gets. -/
def axidma_init_sg_entry (dmabuf_list external_dmabufs : List Allocation) (buf : Address)
    (buf_len : BitVec 32) : Except Int (Address × BitVec 32) :=
  let dma_addr := axidma_uservirt_to_dma dmabuf_list external_dmabufs buf buf_len
  if dma_addr = 0 then .error (-14) else .ok (dma_addr, buf_len)

/-! ## The mappings -/

/-- What `mmap` has reserved for a process. -/
structure Vma (P : Type) where
  process : P
  vm_start : Address
  vm_end : Address
  nonempty : vm_start.toNat < vm_end.toNat

/-- A mapping with the buffer that stands behind it. -/
structure Mapping (P : Type) where
  vma : Vma P
  dma_addr : Address

namespace Mapping

variable {P : Type}

def size (m : Mapping P) : BitVec 32 := m.vma.vm_end - m.vma.vm_start

/-- What `axidma_mmap` puts into the list. -/
def allocation (m : Mapping P) : Allocation := ⟨m.size, m.vma.vm_start, m.dma_addr⟩

/-- The request stays in the mapping. -/
def Holds (m : Mapping P) (user_addr : Address) (size : BitVec 32) : Prop :=
  m.vma.vm_start.toNat ≤ user_addr.toNat ∧ user_addr.toNat + size.toNat ≤ m.vma.vm_end.toNat

/-- The address of the buffer for an address of the mapping. -/
def dma (m : Mapping P) (user_addr : Address) : Address := m.dma_addr + (user_addr - m.vma.vm_start)

/-- No byte of the process is in both. -/
def UserApart (m m' : Mapping P) : Prop :=
  m.vma.vm_end.toNat ≤ m'.vma.vm_start.toNat ∨ m'.vma.vm_end.toNat ≤ m.vma.vm_start.toNat

/-- No byte of the memory is in both buffers. -/
def DmaApart (m m' : Mapping P) : Prop :=
  m.dma_addr.toNat + m.size.toNat ≤ m'.dma_addr.toNat ∨
    m'.dma_addr.toNat + m'.size.toNat ≤ m.dma_addr.toNat

end Mapping

/-- What the kernel answers during `axidma_mmap`. -/
structure MmapAnswers where
  kmalloc : Bool
  dma_alloc_coherent : Option Address
  dma_mmap_coherent : Int

section Steps

variable {P : Type}

/-- The newest mapping comes first. -/
def axidma_mmap (a : MmapAnswers) (vma : Vma P) (ms : List (Mapping P)) : Int × List (Mapping P) :=
  if !a.kmalloc then (-ENOMEM, ms)
  else
    match a.dma_alloc_coherent with
    | none => (-ENOMEM, ms)
    | some dma_addr =>
      if a.dma_mmap_coherent < 0 then (a.dma_mmap_coherent, ms) else (0, ⟨vma, dma_addr⟩ :: ms)

inductive MapAction (P : Type)
  | mmap (a : MmapAnswers) (vma : Vma P)
  /-- a mapping is closed, which takes it out of the list -/
  | close (i : ℕ)

def map_next (ms : List (Mapping P)) : MapAction P → List (Mapping P)
  | .mmap a vma => (axidma_mmap a vma ms).2
  | .close i => ms.eraseIdx i

/-- The kernel gives a process addresses that it does not use, and memory that nobody uses. -/
def Apart (m m' : Mapping P) : Prop :=
  (m.vma.process = m'.vma.process → m.UserApart m') ∧ m.DmaApart m'

def MapEnabled (ms : List (Mapping P)) : MapAction P → Prop
  | .mmap a vma => ∀ dma_addr, a.dma_alloc_coherent = some dma_addr →
      dma_addr.toNat + (Mapping.mk vma dma_addr).size.toNat ≤ 2 ^ 32 ∧
        ∀ m ∈ ms, Apart ⟨vma, dma_addr⟩ m
  | .close i => i < ms.length

def mappings : System (List (Mapping P)) (MapAction P) := ⟨map_next, MapEnabled⟩

/-! ## The invariant -/

structure Kept (ms : List (Mapping P)) : Prop where
  apart : ms.Pairwise Apart
  fits : ∀ m ∈ ms, m.dma_addr.toNat + m.size.toNat ≤ 2 ^ 32

theorem kept_next {ms : List (Mapping P)} {a : MapAction P} (h : Kept ms) (ha : MapEnabled ms a) :
    Kept (map_next ms a) := by
  cases a with
  | mmap a vma =>
    change Kept (axidma_mmap a vma ms).2
    unfold axidma_mmap
    split
    · exact h
    · cases hdma : a.dma_alloc_coherent with
      | none => exact h
      | some dma_addr =>
        obtain ⟨hfits, hapart⟩ := ha dma_addr hdma
        dsimp only
        split_ifs
        · exact h
        · exact ⟨List.pairwise_cons.mpr ⟨hapart, h.apart⟩,
            List.forall_mem_cons.mpr ⟨hfits, h.fits⟩⟩
  | close i =>
    have hsub := List.eraseIdx_sublist ms i
    exact ⟨h.apart.sublist hsub, fun m hm => h.fits m (hsub.subset hm)⟩

theorem kept_of_run {ms : List (Mapping P)} {tr : List (List (Mapping P) × MapAction P)}
    (h : Run mappings (fun _ _ => True) [] tr ms) : Kept ms :=
  h.inv ⟨.nil, List.forall_mem_nil _⟩ fun _ _ hs ha _ => kept_next hs ha

/-! ## One request -/

namespace Mapping

theorem toNat_size (m : Mapping P) : m.size.toNat = m.vma.vm_end.toNat - m.vma.vm_start.toNat :=
  BitVec.toNat_sub_of_le (Nat.le_of_lt m.vma.nonempty)

theorem start_add_size (m : Mapping P) : m.vma.vm_start + m.size = m.vma.vm_end := by
  unfold size
  rw [BitVec.add_comm, BitVec.sub_add_cancel]

/-- The check of the driver for a mapping. -/
def Takes (m : Mapping P) (user_addr : Address) (size : BitVec 32) : Bool :=
  valid_dma_request m.allocation.user_addr m.allocation.size user_addr size

/-- Below the end of the address space the check says what it is meant to say. -/
theorem takes_iff (m : Mapping P) {u : Address} {n : BitVec 32}
    (hfit : u.toNat + n.toNat < 2 ^ 32) : m.Takes u n = true ↔ m.Holds u n := by
  have hsum : (u + n).toNat = u.toNat + n.toNat := BitVec.toNat_add_of_lt hfit
  unfold Takes valid_dma_request Holds allocation
  dsimp only
  rw [m.start_add_size, Bool.and_eq_true, decide_eq_true_iff, decide_eq_true_iff, BitVec.le_def,
    BitVec.le_def, hsum]

/-- Over the end it compares what is left of the sum. -/
theorem takes_over_iff (m : Mapping P) {u : Address} {n : BitVec 32}
    (hover : 2 ^ 32 ≤ u.toNat + n.toNat) : m.Takes u n = true ↔
      m.vma.vm_start.toNat ≤ u.toNat ∧ u.toNat + n.toNat - 2 ^ 32 ≤ m.vma.vm_end.toNat := by
  have hu := u.isLt
  have hn := n.isLt
  have hsum : (u + n).toNat = u.toNat + n.toNat - 2 ^ 32 := by
    rw [BitVec.toNat_add]
    omega
  unfold Takes valid_dma_request allocation
  dsimp only
  rw [m.start_add_size, Bool.and_eq_true, decide_eq_true_iff, decide_eq_true_iff, BitVec.le_def,
    BitVec.le_def, hsum]

theorem toNat_dma {m : Mapping P} {u : Address} {n : BitVec 32} (h : m.Holds u n)
    (hn : 0 < n.toNat) (hfits : m.dma_addr.toNat + m.size.toNat ≤ 2 ^ 32) :
    (m.dma u).toNat = m.dma_addr.toNat + (u.toNat - m.vma.vm_start.toNat) := by
  have hoff : (u - m.vma.vm_start).toNat = u.toNat - m.vma.vm_start.toNat :=
    BitVec.toNat_sub_of_le h.1
  have hsize := m.toNat_size
  have hend := h.2
  unfold dma
  rw [BitVec.toNat_add_of_lt (by omega), hoff]

/-- The engine stays in the buffer of the mapping. -/
theorem dma_inside {m : Mapping P} {u : Address} {n : BitVec 32} (h : m.Holds u n)
    (hn : 0 < n.toNat) (hfits : m.dma_addr.toNat + m.size.toNat ≤ 2 ^ 32) :
    m.dma_addr.toNat ≤ (m.dma u).toNat ∧
      (m.dma u).toNat + n.toNat ≤ m.dma_addr.toNat + m.size.toNat := by
  have hsize := m.toNat_size
  have hend := h.2
  have hstart := h.1
  rw [toNat_dma h hn hfits]
  omega

end Mapping

/-- What the driver gives to the engine, with no buffers of other drivers. -/
def sg_entry (ms : List (Mapping P)) (user_addr : Address) (size : BitVec 32) :
    Except Int (Address × BitVec 32) :=
  axidma_init_sg_entry (ms.map Mapping.allocation) [] user_addr size

theorem sg_entry_eq (ms : List (Mapping P)) (u : Address) (n : BitVec 32) :
    sg_entry ms u n =
      match ms.find? fun m => m.Takes u n with
      | some m => if m.dma u = 0 then .error (-14) else .ok (m.dma u, n)
      | none => .error (-14) := by
  have hfind : (ms.map Mapping.allocation).find?
      (fun a => valid_dma_request a.user_addr a.size u n) =
        (ms.find? fun m => m.Takes u n).map Mapping.allocation := List.find?_map
  unfold sg_entry axidma_init_sg_entry axidma_uservirt_to_dma
  dsimp only
  rw [hfind]
  cases ms.find? fun m => m.Takes u n with
  | none => rfl
  | some m => rfl

/-- A request of a process goes to the buffer of one of its own mappings, or to none when
none of them holds it. -/
def Served (ms : List (Mapping P)) (p : P) (u : Address) (n : BitVec 32) : Prop :=
  (∃ m ∈ ms, m.vma.process = p ∧ m.Holds u n ∧ sg_entry ms u n = .ok (m.dma u, n)) ∨
    (∀ m ∈ ms, m.vma.process = p → ¬ m.Holds u n) ∧ sg_entry ms u n = .error (-14)

/-! ## All requests -/

section Kept

variable {ms : List (Mapping P)} {m m' : Mapping P} {u : Address} {n : BitVec 32}

instance apart_symm : Std.Symm (Apart : Mapping P → Mapping P → Prop) :=
  ⟨fun _ _ h => ⟨fun hp => (h.1 hp.symm).symm, h.2.symm⟩⟩

/-- Two mappings are the same when a byte of the memory is in both of their buffers. -/
theorem Kept.eq_of_dma (h : Kept ms) (hm : m ∈ ms) (hm' : m' ∈ ms) (hn : 0 < n.toNat)
    (hu : m.Holds u n) (hu' : m'.Holds u n) (heq : m.dma u = m'.dma u) : m = m' := by
  by_contra hne
  have hapart : Apart m m' := h.apart.forall hm hm' hne
  have hin := Mapping.dma_inside hu hn (h.fits m hm)
  have hin' := Mapping.dma_inside hu' hn (h.fits m' hm')
  rw [heq] at hin
  rcases hapart.2 with hd | hd <;> omega

/-- A request that one mapping holds is in no other mapping of the same process. -/
theorem Kept.eq_of_holds (h : Kept ms) (hm : m ∈ ms) (hm' : m' ∈ ms) (hn : 0 < n.toNat)
    (hu : m.Holds u n) (hu' : m'.Holds u n) (hp : m.vma.process = m'.vma.process) : m = m' := by
  by_contra hne
  have hapart : Apart m m' := h.apart.forall hm hm' hne
  have h1 := hu.1
  have h2 := hu.2
  have h1' := hu'.1
  have h2' := hu'.2
  rcases hapart.1 hp with hd | hd <;> omega

/-- With one process and no buffer at zero, each request below the end is served. -/
theorem Kept.served (h : Kept ms) (hone : ∀ m ∈ ms, m.dma_addr ≠ 0 ∧ ∀ p, m.vma.process = p)
    (p : P) (hn : 0 < n.toNat) (hfit : u.toNat + n.toNat < 2 ^ 32) : Served ms p u n := by
  have heq := sg_entry_eq ms u n
  cases hfind : ms.find? fun m => m.Takes u n with
  | none =>
    rw [hfind] at heq
    refine Or.inr ⟨fun m hm _ hu => ?_, heq⟩
    exact (List.find?_eq_none.mp hfind) m hm ((m.takes_iff hfit).mpr hu)
  | some m =>
    have hm := List.mem_of_find?_eq_some hfind
    have htakes := List.find?_some hfind
    have hu := (m.takes_iff hfit).mp htakes
    have hne : m.dma u ≠ 0 := by
      intro hzero
      have hval := Mapping.toNat_dma hu hn (h.fits m hm)
      rw [hzero] at hval
      exact (hone m hm).1 (BitVec.eq_of_toNat_eq (by simp at hval ⊢; omega))
    rw [hfind] at heq
    dsimp only at heq
    rw [if_neg hne] at heq
    exact Or.inl ⟨m, hm, (hone m hm).2 p, hu, heq⟩

theorem sg_entry_ne_zero {a : Address} (h : sg_entry ms u n = .ok (a, n)) : a ≠ 0 := by
  unfold sg_entry axidma_init_sg_entry at h
  dsimp only at h
  split_ifs at h with hzero
  cases h
  exact hzero

/-- The request for the first byte of a mapping. -/
theorem first_byte_held (m : Mapping P) : m.Holds m.vma.vm_start 1 := by
  have hlt := m.vma.nonempty
  have hval : (1 : BitVec 32).toNat = 1 := rfl
  refine ⟨Nat.le_refl _, ?_⟩
  omega

/-- Every process gets the first byte of its mapping from this mapping. -/
theorem Kept.served_first (h : Kept ms) (hm : m ∈ ms)
    (hs : Served ms m.vma.process m.vma.vm_start 1) :
    sg_entry ms m.vma.vm_start 1 = .ok (m.dma_addr, 1) := by
  have hheld := first_byte_held m
  rcases hs with ⟨m', hm', hp, hu, hok⟩ | ⟨hno, -⟩
  · obtain rfl := h.eq_of_holds hm hm' (by decide) hheld hu hp.symm
    rw [hok]
    simp [Mapping.dma]
  · exact absurd hheld (hno m hm rfl)

end Kept

/-- No mapping holds a request over the end of the address space. -/
theorem served_over_iff {ms : List (Mapping P)} (p : P) {u : Address} {n : BitVec 32}
    (hover : 2 ^ 32 ≤ u.toNat + n.toNat) :
    Served ms p u n ↔ ∀ m, ms.find? (fun m => m.Takes u n) = some m → m.dma u = 0 := by
  have hno : ∀ m : Mapping P, ¬ m.Holds u n := by
    intro m hu
    have hend := m.vma.vm_end.isLt
    have := hu.2
    omega
  have heq := sg_entry_eq ms u n
  constructor
  · rintro (⟨m, -, -, hu, -⟩ | ⟨-, herr⟩) m' hfind
    · exact absurd hu (hno m)
    · rw [herr, hfind] at heq
      dsimp only at heq
      by_contra hne
      rw [if_neg hne] at heq
      cases heq
  · intro hzero
    refine Or.inr ⟨fun m _ _ => hno m, ?_⟩
    cases hfind : ms.find? fun m => m.Takes u n with
    | none => rw [heq, hfind]
    | some m =>
      rw [heq, hfind]
      exact if_pos (hzero m hfind)

/-- In every state that mappings lead to, each request below the end of the address space is
served, whatever process it comes from, exactly when no other process can use the device beside
the one that has the mappings, and no buffer is at the address zero. A request over the end is
refused unless the newest mapping that starts before it and ends behind what is left of the sum
gives it an address. -/
theorem requests_are_served_iff {ms : List (Mapping P)}
    {tr : List (List (Mapping P) × MapAction P)} (h : Run mappings (fun _ _ => True) [] tr ms) :
    ((∀ p u n, 0 < n.toNat → u.toNat + n.toNat < 2 ^ 32 → Served ms p u n) ↔
      ∀ m ∈ ms, m.dma_addr ≠ 0 ∧ ∀ p, m.vma.process = p) ∧
    ∀ p u n, 2 ^ 32 ≤ u.toNat + n.toNat → (Served ms p u n ↔
      ∀ m, ms.find? (fun m => decide (m.vma.vm_start.toNat ≤ u.toNat ∧
        u.toNat + n.toNat - 2 ^ 32 ≤ m.vma.vm_end.toNat)) = some m → m.dma u = 0) := by
  have hkept := kept_of_run h
  refine ⟨⟨fun hserved m hm => ?_, fun hone p u n hn hfit => hkept.served hone p hn hfit⟩, ?_⟩
  · have hfit : m.vma.vm_start.toNat + (1 : BitVec 32).toNat < 2 ^ 32 := by
      have hend := m.vma.vm_end.isLt
      have hlt := m.vma.nonempty
      have hval : (1 : BitVec 32).toNat = 1 := rfl
      omega
    have hall := fun p => hserved p m.vma.vm_start 1 (by decide) hfit
    have hok := hkept.served_first hm (hall _)
    refine ⟨fun hzero => sg_entry_ne_zero hok hzero, fun p => ?_⟩
    rcases hall p with ⟨m', hm', hp, hu, hok'⟩ | ⟨-, herr⟩
    · rw [hok, Except.ok.injEq, Prod.mk.injEq] at hok'
      have hdma : m.dma m.vma.vm_start = m'.dma m.vma.vm_start := by
        rw [← hok'.1]
        simp [Mapping.dma]
      rw [hkept.eq_of_dma hm hm' (by decide) (first_byte_held m) hu hdma]
      exact hp
    · rw [hok] at herr
      cases herr
  · intro p u n hover
    have htakes : (fun m : Mapping P => m.Takes u n) = fun m =>
        decide (m.vma.vm_start.toNat ≤ u.toNat ∧
          u.toNat + n.toNat - 2 ^ 32 ≤ m.vma.vm_end.toNat) := by
      funext m
      rw [Bool.eq_iff_iff, m.takes_over_iff hover, decide_eq_true_iff]
    rw [served_over_iff p hover, htakes]

section Example

/-- A page of a process, with its buffer at the second page of the memory. -/
def page : Vma Unit := ⟨(), 0x1000, 0x2000, by decide⟩

/-- Each request to the page is served, and a request over the end is not. -/
theorem requests_to_the_page_are_served :
    (∀ p u n, 0 < n.toNat → u.toNat + n.toNat < 2 ^ 32 → Served [⟨page, 0x5000⟩] p u n) ∧
      ¬ Served [⟨page, 0x5000⟩] () 0x1800 0xfffff900 := by
  have hfree : MapEnabled [] (.mmap ⟨true, some 0x5000, 0⟩ page) := by
    rintro _ ⟨⟩
    exact ⟨by decide, List.forall_mem_nil _⟩
  have hrun : Run mappings (fun _ _ => True) [] _ [⟨page, 0x5000⟩] :=
    .step (MapAction.mmap ⟨true, some 0x5000, 0⟩ page) .start hfree trivial
  obtain ⟨hbelow, hover⟩ := requests_are_served_iff hrun
  refine ⟨hbelow.mpr (by simp), fun hserved => ?_⟩
  have hzero := (hover () 0x1800 0xfffff900 (by decide)).mp hserved ⟨page, 0x5000⟩ rfl
  revert hzero
  decide

end Example

end Steps

end axidma
