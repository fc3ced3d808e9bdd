import Mathlib.Algebra.Group.Nat.Defs
import Mathlib.Tactic.Common

/-!
# Addresses and page-table entries

The macros of `riscv.h` and `memlayout.h`. An address is a natural number below `2^64`; an operation that can leave the range is taken modulo `2^64`. A page-table entry is a 64-bit word: ten flag bits, and the physical page number above them.
-/

namespace AdvancedXv6.Kernel

/-! ### Pages of memory -/

def pgsize : ℕ := 4096

def pgroundup (sz : ℕ) : ℕ := (sz + pgsize - 1) % 2 ^ 64 / pgsize * pgsize

def pgrounddown (a : ℕ) : ℕ := a / pgsize * pgsize

/-- One beyond the highest virtual address, `1 << 38`. -/
def maxva : ℕ := 2 ^ 38

def trampolineVa : ℕ := maxva - pgsize

def trapframeVa : ℕ := trampolineVa - pgsize

def phystop : ℕ := 0x80000000 + 128 * 1024 * 1024

/-- The linker's `end`, the first address after the kernel (`kernel.sym`). -/
def kernelEnd : ℕ := 0x802421b8

/-- The physical address of the linker's `trampoline` (`kernel.sym`). -/
def trampolinePa : ℕ := 0x80007000

/-! ### Page-table entries -/

abbrev Pte := BitVec 64

def pteV : Pte := 1#64 <<< 0
def pteR : Pte := 1#64 <<< 1
def pteW : Pte := 1#64 <<< 2
def pteX : Pte := 1#64 <<< 3
def pteU : Pte := 1#64 <<< 4
def pteC : Pte := 1#64 <<< 5

def Pte.has (pte flag : Pte) : Bool := pte &&& flag != 0

def pa2pte (pa : ℕ) : Pte := (BitVec.ofNat 64 pa >>> 12) <<< 10

def pte2pa (pte : Pte) : ℕ := ((pte >>> 10) <<< 12).toNat

def pteFlags (pte : Pte) : Pte := pte &&& 0x3FF

def px (level va : ℕ) : Fin 512 := ⟨va / 2 ^ (12 + 9 * level) % 512, Nat.mod_lt _ (by decide)⟩

/-! ### Single flags -/

theorem getLsbD_flag {n : ℕ} (hn : n < 64) (i : ℕ) : (1#64 <<< n).getLsbD i = decide (i = n) := by
  rw [BitVec.getLsbD_shiftLeft, BitVec.getLsbD_one]
  by_cases heq : i = n
  · simp [heq, hn]
  · by_cases hlt : i < n
    · simp [heq, hlt]
    · have hsub : i - n ≠ 0 := by omega
      simp [heq, hsub]

theorem Pte.has_shift (pte : Pte) {i : ℕ} (hi : i < 64) : Pte.has pte (1#64 <<< i) = pte.getLsbD i := by
  have hbit : ∀ j, (pte &&& 1#64 <<< i).getLsbD j = (pte.getLsbD j && decide (j = i)) := by
    intro j
    rw [BitVec.getLsbD_and, getLsbD_flag hi]
  unfold Pte.has
  cases hpte : pte.getLsbD i with
  | true =>
    rw [bne_iff_ne]
    intro hzero
    have hset := hbit i
    rw [hzero, hpte] at hset
    simp at hset
  | false =>
    rw [bne_eq_false_iff_eq]
    apply BitVec.eq_of_getLsbD_eq
    intro j hj
    rw [hbit j]
    by_cases heq : j = i
    · simp [heq, hpte]
    · simp [heq]

theorem has_pteV (pte : Pte) : Pte.has pte pteV = pte.getLsbD 0 := Pte.has_shift pte (by decide)
theorem has_pteR (pte : Pte) : Pte.has pte pteR = pte.getLsbD 1 := Pte.has_shift pte (by decide)
theorem has_pteW (pte : Pte) : Pte.has pte pteW = pte.getLsbD 2 := Pte.has_shift pte (by decide)
theorem has_pteU (pte : Pte) : Pte.has pte pteU = pte.getLsbD 4 := Pte.has_shift pte (by decide)
theorem has_pteC (pte : Pte) : Pte.has pte pteC = pte.getLsbD 5 := Pte.has_shift pte (by decide)

/-! ### Entries put together from an address and flags -/

def Pte.page (pte : Pte) : ℕ := pte2pa pte / pgsize

theorem getLsbD_mask (i : ℕ) : (0x3FF#64).getLsbD i = decide (i < 10) := by
  by_cases hi : i < 64
  · revert hi
    revert i
    decide
  · rw [BitVec.getLsbD_of_ge _ _ (by omega)]
    simp
    omega

theorem getLsbD_pteFlags (pte : Pte) (i : ℕ) : (pteFlags pte).getLsbD i = (pte.getLsbD i && decide (i < 10)) := by
  rw [pteFlags, show (0x3FF : BitVec 64) = 0x3FF#64 from rfl, BitVec.getLsbD_and, getLsbD_mask]

theorem getLsbD_entry {pa : ℕ} {flags : Pte} {i : ℕ} (hi : i < 10) :
    (pa2pte pa ||| flags).getLsbD i = flags.getLsbD i := by
  simp [pa2pte, BitVec.getLsbD_or, BitVec.getLsbD_shiftLeft, hi]

theorem pte2pa_entry {p : ℕ} (hp : p < 2 ^ 44) {flags : Pte} (hflags : ∀ i, 10 ≤ i → flags.getLsbD i = false) :
    pte2pa (pa2pte (p * pgsize) ||| flags) = p * pgsize := by
  have heq : ((pa2pte (p * pgsize) ||| flags) >>> 10) <<< 12 = BitVec.ofNat 64 (p * pgsize) := by
    apply BitVec.eq_of_getLsbD_eq
    intro i hi
    simp only [pa2pte, BitVec.getLsbD_shiftLeft, BitVec.getLsbD_ushiftRight, BitVec.getLsbD_or, BitVec.getLsbD_ofNat, hi]
    by_cases hlt : i < 12
    · have hlow : (p * pgsize).testBit i = false := by
        rw [pgsize, show (4096 : ℕ) = 2 ^ 12 from rfl, Nat.testBit_mul_two_pow]
        simp
        omega
      simp [hlt, hlow]
    · rw [hflags (10 + (i - 12)) (by omega)]
      have hindex : 12 + (10 + (i - 12) - 10) = i := by omega
      have hrange : 10 + (i - 12) < 64 := by omega
      rw [hindex]
      simp [hlt, hi, hrange]
  rw [pte2pa, heq, BitVec.toNat_ofNat, Nat.mod_eq_of_lt]
  unfold pgsize
  omega

end AdvancedXv6.Kernel
