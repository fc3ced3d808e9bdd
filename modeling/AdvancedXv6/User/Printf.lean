import Mathlib.Data.BitVec
import Mathlib.Data.Nat.Digits.Lemmas

/-!
# Formatted output

`printint`, `printptr` and `vprintf` of `user/printf.c`. An argument is a word of 64 bits, of which `printint` gets the low 32; the strings of `%s` are given by their addresses.
-/

namespace AdvancedXv6.User

variable {base fuel x n : ℕ}

/-! ### `printf.c` -/

def digits : List Char :=
  ['0', '1', '2', '3', '4', '5', '6', '7', '8', '9', 'A', 'B', 'C', 'D', 'E', 'F']

def digit (d : ℕ) : Char := digits.getD d ' '

/-- The loop of `printint`. A number of 32 bits has at most 32 digits, whatever the base. -/
def digitLoop (base : ℕ) : ℕ → ℕ → List Char
  | 0, _ => []
  | fuel + 1, x =>
    digit (x % base) :: if x / base ≠ 0 then digitLoop base fuel (x / base) else []

/-- What `printint` has put into `buf`, which it then writes from the end. -/
def printintBuf (xx : BitVec 32) (base : ℕ) (sgn : Bool) : List Char :=
  if sgn ∧ xx.toInt < 0 then digitLoop base 32 (-xx).toNat ++ ['-'] else digitLoop base 32 xx.toNat

def printint (xx : BitVec 32) (base : ℕ) (sgn : Bool) : List Char :=
  (printintBuf xx base sgn).reverse

def ptrLoop : ℕ → BitVec 64 → List Char
  | 0, _ => []
  | n + 1, x => digit (x >>> 60).toNat :: ptrLoop n (x <<< 4)

def printptr (x : BitVec 64) : List Char := '0' :: 'x' :: ptrLoop 16 x

/-- The loop of `vprintf`; `state` is set behind a percent sign, and argument `i` is next. -/
def vprintf (strings : BitVec 64 → List Char) (args : ℕ → BitVec 64) :
    ℕ → Bool → List Char → List Char
  | _, _, [] => []
  | i, false, c :: fmt =>
    if c = '%' then vprintf strings args i true fmt else c :: vprintf strings args i false fmt
  | i, true, c :: fmt =>
    let next := vprintf strings args (i + 1) false fmt
    if c = 'd' then printint ((args i).setWidth 32) 10 true ++ next
    else if c = 'l' then printint ((args i).setWidth 32) 10 false ++ next
    else if c = 'x' then printint ((args i).setWidth 32) 16 false ++ next
    else if c = 'p' then printptr (args i) ++ next
    else if c = 's' then
      (if args i = 0 then ['(', 'n', 'u', 'l', 'l', ')'] else strings (args i)) ++ next
    else if c = 'c' then Char.ofNat ((args i).toNat % 256) :: next
    else if c = '%' then c :: vprintf strings args i false fmt
    else '%' :: c :: vprintf strings args i false fmt

/-! ### Numerals -/

/-- The number that some digits stand for, the highest first. -/
def numeral (base : ℕ) (cs : List Char) : Option ℕ :=
  if cs ≠ [] ∧ cs.all fun c => digits.idxOf c < base then
    some (Nat.ofDigits base (cs.reverse.map digits.idxOf))
  else none

theorem numeral_map (hbase : base ≤ 16) {ds : List ℕ} (hne : ds ≠ []) (hlt : ∀ d ∈ ds, d < base) :
    numeral base (ds.map digit).reverse = some (Nat.ofDigits base ds) := by
  have hdigit : ∀ d < 16, digits.idxOf (digit d) = d := by decide
  have hidx (d : ℕ) (hd : d ∈ ds) : digits.idxOf (digit d) = d :=
    hdigit d ((hlt d hd).trans_le hbase)
  have hmap : ds.map (digits.idxOf ∘ digit) = ds := (List.map_congr_left hidx).trans (List.map_id ds)
  rw [numeral, List.reverse_reverse, List.map_map, hmap, if_pos]
  refine ⟨by simpa using hne, List.all_eq_true.mpr fun c hc => decide_eq_true ?_⟩
  obtain ⟨d, hd, rfl⟩ := List.mem_map.mp (List.mem_reverse.mp hc)
  rw [hidx d hd]
  exact hlt d hd

theorem digitLoop_eq (hbase : 1 < base) (hx : 0 < x) (hfuel : x < base ^ fuel) :
    digitLoop base fuel x = (Nat.digits base x).map digit := by
  induction fuel generalizing x with
  | zero => exact absurd hfuel (Nat.not_lt.mpr hx)
  | succ fuel ih =>
    rw [digitLoop, Nat.digits_def' hbase hx, List.map_cons]
    split
    · rename_i hne
      rw [ih (Nat.pos_of_ne_zero hne) (Nat.div_lt_of_lt_mul (by rwa [← pow_succ']))]
    · rename_i hzero
      rw [not_not.mp hzero, Nat.digits_zero, List.map_nil]

theorem digitLoop_spec (hbase : 10 ≤ base) (hle : base ≤ 16) (xx : BitVec 32) :
    numeral base (digitLoop base 32 xx.toNat).reverse = some xx.toNat ∧
      (digitLoop base 32 xx.toNat).length ≤ 10 := by
  have hlt (k : ℕ) (hk : 2 ^ 32 ≤ 10 ^ k) : xx.toNat < base ^ k :=
    xx.isLt.trans_le (hk.trans (Nat.pow_le_pow_left hbase k))
  rcases Nat.eq_zero_or_pos xx.toNat with hzero | hpos
  · have hloop : digitLoop base 32 0 = [0].map digit := by simp [digitLoop]
    rw [hzero, hloop]
    exact ⟨numeral_map hle (by simp) (by simp; omega), by simp⟩
  · rw [digitLoop_eq (by omega) hpos (hlt 32 (by decide)), List.length_map,
      Nat.digits_length_le_iff (by omega)]
    refine ⟨?_, hlt 10 (by decide)⟩
    rw [numeral_map hle (Nat.digits_ne_nil_iff_ne_zero.mpr (by omega))
      fun d => Nat.digits_lt_base (by omega), Nat.ofDigits_digits]

theorem length_printintBuf (hbase : 10 ≤ base) (hle : base ≤ 16) (xx : BitVec 32) (sgn : Bool) :
    (printintBuf xx base sgn).length ≤ 16 := by
  have hneg := (digitLoop_spec hbase hle (-xx)).2
  have hpos := (digitLoop_spec hbase hle xx).2
  unfold printintBuf
  split
  · rw [List.length_append, List.length_singleton]
    omega
  · omega

/-- The first digits that are shifted out of `x`. -/
theorem ptrLoop_eq (x : BitVec 64) (hn : n ≤ 16) :
    ∃ ds : List ℕ, ds.length = n ∧ (∀ d ∈ ds, d < 16) ∧ ptrLoop n x = (ds.map digit).reverse ∧
      Nat.ofDigits 16 ds = x.toNat / 16 ^ (16 - n) := by
  induction n generalizing x with
  | zero => exact ⟨[], rfl, by simp, rfl, (Nat.div_eq_of_lt x.isLt).symm⟩
  | succ n ih =>
    obtain ⟨ds, hlen, hlt, hloop, hvalue⟩ := ih (x <<< 4) (by omega)
    have htop : (x >>> 60).toNat = x.toNat / 16 ^ 15 := by
      rw [BitVec.toNat_ushiftRight, Nat.shiftRight_eq_div_pow]
      rfl
    have hpow : 16 ^ 15 = 16 ^ (15 - n) * 16 ^ n := by
      rw [← pow_add, Nat.sub_add_cancel (by omega)]
    have hshift : (x <<< 4).toNat = 16 * (x.toNat % 16 ^ 15) := by
      rw [BitVec.toNat_shiftLeft, Nat.shiftLeft_eq, mul_comm]
      exact Nat.mul_mod_mul_left 16 x.toNat (16 ^ 15)
    refine ⟨ds ++ [(x >>> 60).toNat], by simp [hlen], ?_, by simp [ptrLoop, hloop], ?_⟩
    · simp only [List.forall_mem_append, List.forall_mem_singleton, htop]
      exact ⟨hlt, Nat.div_lt_of_lt_mul x.isLt⟩
    · rw [Nat.ofDigits_append, Nat.ofDigits_singleton, hvalue, hlen, htop, hshift, hpow,
        show 16 - n = 15 - n + 1 by omega, pow_succ', Nat.mul_div_mul_left _ _ (by decide),
        Nat.mod_mul_right_div_self, ← Nat.div_div_eq_div_mul, Nat.mod_add_div]
      congr 2
      omega

/-! ### Conversions -/

inductive Conversion where
  | d
  | l
  | x
  | p
  deriving DecidableEq

def Conversion.char : Conversion → Char
  | .d => 'd'
  | .l => 'l'
  | .x => 'x'
  | .p => 'p'

def Conversion.output (w : BitVec 64) : Conversion → List Char
  | .d => printint (w.setWidth 32) 10 true
  | .l => printint (w.setWidth 32) 10 false
  | .x => printint (w.setWidth 32) 16 false
  | .p => printptr w

/-- The characters denote the argument as the conversion says. -/
def Conversion.Denotes (w : BitVec 64) (cs : List Char) : Conversion → Prop
  | .d => ∃ k : ℕ, (w.setWidth 32).toInt = k ∧ numeral 10 cs = some k ∨
      (w.setWidth 32).toInt = -k ∧ ∃ ds, cs = '-' :: ds ∧ numeral 10 ds = some k
  | .l => numeral 10 cs = some w.toNat
  | .x => numeral 16 cs = some (w.setWidth 32).toNat
  | .p => ∃ ds, cs = '0' :: 'x' :: ds ∧ ds.length = 16 ∧ numeral 16 ds = some w.toNat

theorem denotes_d (w : BitVec 64) : Conversion.d.Denotes w (Conversion.d.output w) := by
  rw [Conversion.output, printint, printintBuf, Conversion.Denotes]
  generalize w.setWidth 32 = xx
  have htoInt := xx.toInt_eq_toNat_cond
  have hneg := BitVec.toNat_neg xx
  have hlt := xx.isLt
  split
  · rename_i hsign
    have hnegative := hsign.2
    refine ⟨(-xx).toNat, .inr ⟨by split at htoInt <;> omega, _, List.reverse_concat .., ?_⟩⟩
    exact (digitLoop_spec (by decide) (by decide) _).1
  · rename_i hsign
    have hnonneg : 0 ≤ xx.toInt := by simpa using hsign
    exact ⟨xx.toNat, .inl ⟨by split at htoInt <;> omega,
      (digitLoop_spec (by decide) (by decide) _).1⟩⟩

theorem denotes_p (w : BitVec 64) : Conversion.p.Denotes w (Conversion.p.output w) := by
  obtain ⟨ds, hlen, hlt, hloop, hvalue⟩ := ptrLoop_eq w (Nat.le_refl 16)
  refine ⟨_, rfl, ?_, ?_⟩
  · rw [hloop, List.length_reverse, List.length_map, hlen]
  · rw [hloop, numeral_map (Nat.le_refl 16) (List.ne_nil_of_length_eq_add_one hlen) hlt, hvalue]
    simp

theorem denotes_iff (conv : Conversion) (w : BitVec 64) :
    conv.Denotes w (conv.output w) ↔ conv ≠ .l ∨ w.toNat < 2 ^ 32 := by
  have hspec {base : ℕ} (hbase : 10 ≤ base) (hle : base ≤ 16) :
      numeral base (printint (w.setWidth 32) base false) = some (w.toNat % 2 ^ 32) := by
    rw [← BitVec.toNat_setWidth]
    simpa [printint, printintBuf] using (digitLoop_spec hbase hle (w.setWidth 32)).1
  cases conv with
  | d => exact iff_of_true (denotes_d w) (.inl (by decide))
  | l =>
    rw [Conversion.Denotes, Conversion.output, hspec (by decide) (by decide)]
    simp
  | x =>
    refine iff_of_true ?_ (.inl (by decide))
    rw [Conversion.Denotes, Conversion.output, hspec (by decide) (by decide), BitVec.toNat_setWidth]
  | p => exact iff_of_true (denotes_p w) (.inl (by decide))

/-- A conversion writes its argument, but for `%l` with more than 32 bits, and `printint` keeps to
its buffer. -/
theorem vprintf_denotes_iff (strings : BitVec 64 → List Char) (args : ℕ → BitVec 64) (i : ℕ)
    (fmt : List Char) (conv : Conversion) :
    ((∃ out, vprintf strings args i false ('%' :: conv.char :: fmt) =
        out ++ vprintf strings args (i + 1) false fmt ∧ conv.Denotes (args i) out) ↔
      conv ≠ .l ∨ (args i).toNat < 2 ^ 32) ∧
    ∀ xx sgn, (printintBuf xx 10 sgn).length ≤ 16 ∧ (printintBuf xx 16 sgn).length ≤ 16 := by
  have hout : vprintf strings args i false ('%' :: conv.char :: fmt) =
      conv.output (args i) ++ vprintf strings args (i + 1) false fmt := by
    cases conv <;> simp [vprintf, Conversion.char, Conversion.output]
  refine ⟨?_, fun xx sgn => ⟨?_, ?_⟩⟩
  · rw [hout, ← denotes_iff]
    simp
  · exact length_printintBuf (by decide) (by decide) xx sgn
  · exact length_printintBuf (by decide) (by decide) xx sgn

/-- `%l` writes 0 for the argument `2^32`. -/
theorem vprintf_truncates :
    vprintf (fun _ => []) (fun _ => 0x100000000#64) 0 false ['%', 'l'] = ['0'] ∧
      ¬ Conversion.l.Denotes 0x100000000#64 ['0'] := by
  refine ⟨by decide, fun hdenotes => ?_⟩
  have hzero : numeral 10 ['0'] = some 0 := by simp [numeral, digits]
  rw [Conversion.Denotes, hzero] at hdenotes
  exact absurd (Option.some.inj hdenotes) (by simp)

end AdvancedXv6.User
