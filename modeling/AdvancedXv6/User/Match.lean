import Mathlib.Data.List.Basic

/-!
# The pattern matcher of `grep`

`match`, `matchhere` and `matchstar` of `user/grep.c`, on the bytes of the strings before their NUL, against the language of a pattern.
-/

namespace AdvancedXv6.User

variable {here : List UInt8 → Bool} {c : UInt8} {re text : List UInt8}

def dot : UInt8 := 46

def star : UInt8 := 42

def caret : UInt8 := 94

def dollar : UInt8 := 36

/-! ### `grep.c` -/

/-- `matchstar`, where `here` is `matchhere` with the rest of the pattern. -/
def matchstar (here : List UInt8 → Bool) (c : UInt8) : List UInt8 → Bool
  | [] => here []
  | x :: text => here (x :: text) || (x == c || c == dot) && matchstar here c text

def matchchar (here : List UInt8 → Bool) (c : UInt8) : List UInt8 → Bool
  | [] => false
  | x :: text => (c == dot || c == x) && here text

def matchhere : List UInt8 → List UInt8 → Bool
  | [] => fun _ => true
  | [c] => fun text => if c = dollar then text.isEmpty else matchchar (matchhere []) c text
  | c :: d :: re => fun text => if d = star then matchstar (matchhere re) c text else matchchar (matchhere (d :: re)) c text

def matchLoop (re : List UInt8) : List UInt8 → Bool
  | [] => matchhere re []
  | x :: text => matchhere re (x :: text) || matchLoop re text

def matchRe (re text : List UInt8) : Bool :=
  if re.head? = some caret then matchhere re.tail text else matchLoop re text

/-! ### Languages -/

inductive Item where
  | char (c : UInt8)
  | star (c : UInt8)
  | eot

def items : List UInt8 → List Item
  | [] => []
  | [c] => if c = dollar then [.eot] else [.char c]
  | c :: d :: re => if d = star then .star c :: items re else .char c :: items (d :: re)

/-- The item is `xs` where the text goes on with `rest`. -/
def Item.Reads : Item → List UInt8 → List UInt8 → Prop
  | char c, xs, _ => ∃ x, xs = [x] ∧ (x = c ∨ c = dot)
  | star c, xs, _ => ∀ x ∈ xs, x = c ∨ c = dot
  | eot, xs, rest => xs = [] ∧ rest = []

/-- `xs` is in the language of the items where the text goes on with `rest`. -/
def Lang : List Item → List UInt8 → List UInt8 → Prop
  | [], xs, _ => xs = []
  | item :: items, xs, rest => ∃ ys zs, xs = ys ++ zs ∧ item.Reads ys (zs ++ rest) ∧ Lang items zs rest

def Begins (items : List Item) (text : List UInt8) : Prop := ∃ xs rest, text = xs ++ rest ∧ Lang items xs rest

theorem begins_cons {item : Item} {items : List Item} :
    Begins (item :: items) text ↔ ∃ ys rest, text = ys ++ rest ∧ item.Reads ys rest ∧ Begins items rest := by
  constructor
  · rintro ⟨_, rest, rfl, ys, zs, rfl, hitem, hzs⟩
    exact ⟨ys, zs ++ rest, List.append_assoc _ _ _, hitem, zs, rest, rfl, hzs⟩
  · rintro ⟨ys, _, rfl, hitem, zs, rest, rfl, hzs⟩
    exact ⟨ys ++ zs, rest, (List.append_assoc _ _ _).symm, ys, zs, rfl, hitem, hzs⟩

/-! ### The matcher finds the words of the language -/

theorem matchstar_iff : matchstar here c text ↔ ∃ xs rest, text = xs ++ rest ∧ (Item.star c).Reads xs rest ∧ here rest := by
  induction text with
  | nil => simp [matchstar, Item.Reads]
  | cons x text ih =>
    rw [matchstar, Bool.or_eq_true, Bool.and_eq_true, ih]
    constructor
    · rintro (hhere | ⟨hx, xs, rest, rfl, hxs, hrest⟩)
      · exact ⟨[], _, rfl, nofun, hhere⟩
      · refine ⟨x :: xs, rest, rfl, List.forall_mem_cons.mpr ⟨?_, hxs⟩, hrest⟩
        simpa only [Bool.or_eq_true, beq_iff_eq] using hx
    · rintro ⟨_ | ⟨y, ys⟩, rest, heq, hxs, hrest⟩
      · exact .inl (heq ▸ hrest)
      · obtain ⟨rfl, rfl⟩ := List.cons.inj heq
        obtain ⟨hx, hxs⟩ := List.forall_mem_cons.mp hxs
        exact .inr ⟨by simpa only [Bool.or_eq_true, beq_iff_eq] using hx, ys, rest, rfl, hxs, hrest⟩

theorem matchchar_iff : matchchar here c text ↔ ∃ xs rest, text = xs ++ rest ∧ (Item.char c).Reads xs rest ∧ here rest := by
  cases text with
  | nil => simp [matchchar, Item.Reads]
  | cons y text =>
    rw [matchchar, Bool.and_eq_true, Bool.or_eq_true, beq_iff_eq, beq_iff_eq]
    constructor
    · rintro ⟨hy, hhere⟩
      exact ⟨[y], text, rfl, ⟨y, rfl, hy.symm.imp_left Eq.symm⟩, hhere⟩
    · rintro ⟨_, rest, heq, ⟨x, rfl, hx⟩, hhere⟩
      obtain ⟨rfl, rfl⟩ := List.cons.inj heq
      exact ⟨hx.symm.imp_right Eq.symm, hhere⟩

theorem matchhere_nil : matchhere [] text ↔ Begins [] text := iff_of_true rfl ⟨[], text, rfl, rfl⟩

theorem matchhere_iff : matchhere re text ↔ Begins (items re) text := by
  induction re using items.induct generalizing text with
  | case1 => exact matchhere_nil
  | case2 => simp [matchhere, items, Item.Reads, Begins, Lang]
  | case3 c hc => simp only [matchhere.eq_2, items, if_neg hc, matchchar_iff, begins_cons, matchhere_nil]
  | case4 c re ih => simp only [matchhere, items, if_true, matchstar_iff, begins_cons, ih]
  | case5 c d re hd ih => simp only [matchhere, items, if_neg hd, matchchar_iff, begins_cons, ih]

theorem matchLoop_eq : matchLoop re text = matchstar (matchhere re) dot text := by
  induction text with
  | nil => rfl
  | cons x text ih => simp [matchLoop, matchstar, ih]

theorem matchLoop_iff : matchLoop re text ↔ ∃ skipped rest, text = skipped ++ rest ∧ Begins (items re) rest := by
  simp only [matchLoop_eq, matchstar_iff, matchhere_iff, Item.Reads, or_true, implies_true, true_and]

/-- `match` says whether the text has a word of the language of the pattern, at its beginning if the pattern starts with a caret. -/
theorem matchRe_iff (re text : List UInt8) :
    matchRe re text ↔ if re.head? = some caret then ∃ xs rest, text = xs ++ rest ∧ Lang (items re.tail) xs rest
      else ∃ skipped xs rest, text = skipped ++ (xs ++ rest) ∧ Lang (items re) xs rest := by
  unfold matchRe
  split
  · exact matchhere_iff
  · rw [matchLoop_iff]
    constructor
    · rintro ⟨skipped, _, rfl, xs, rest, rfl, hxs⟩
      exact ⟨skipped, xs, rest, rfl, hxs⟩
    · rintro ⟨skipped, xs, rest, rfl, hxs⟩
      exact ⟨skipped, xs ++ rest, rfl, xs, rest, rfl, hxs⟩

end AdvancedXv6.User
