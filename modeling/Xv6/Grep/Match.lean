/-
  Xv6.Grep.Match — the matcher of grep (user/grep.c: `match`, `matchhere`, `matchstar`).

  A C string is the list of its bytes before the NUL. `matchstar` tries the rest of the pattern at the text, then
  past one more byte that the starred one stands for, and so on; `match` tries every place of the text unless
  the pattern begins with `^`.

  The meaning is that of the pattern read from the left: a byte followed by `*` is a star, any other byte stands
  for itself or, if it is a dot, for any byte, and a `$` at the very end is the end of the text. `match_decides`:
  `match` finds a text exactly when some part of it is in the product of the items' languages, at the start
  or the end of the text where the pattern says so. The recursion is on the pattern and, inside, on the text,
  so both functions return.
-/

import Mathlib.Computability.Language
import Mathlib.Algebra.Order.Ring.Nat

namespace Xv6.Grep

open scoped Computability

def caret : UInt8 := 94
def star : UInt8 := 42
def dollar : UInt8 := 36
def dot : UInt8 := 46

/-- `matchstar(c, re, text)`; `here` is `matchhere(re, ·)`. -/
def matchstar (here : List UInt8 → Bool) (c : UInt8) : List UInt8 → Bool
  | [] => here []
  | t :: text => here (t :: text) || ((t == c || c == dot) && matchstar here c text)

def matchhere : List UInt8 → List UInt8 → Bool
  | [], _ => true
  | [c], text =>
    if c = dollar then text.isEmpty
    else match text with
      | [] => false
      | t :: _ => c == dot || c == t
  | c :: d :: re, text =>
    if d = star then matchstar (matchhere re) c text
    else match text with
      | [] => false
      | t :: text => (c == dot || c == t) && matchhere (d :: re) text

/-- The loop of `match`: at the text, then at each place after it. -/
def search (re : List UInt8) : List UInt8 → Bool
  | [] => matchhere re []
  | t :: text => matchhere re (t :: text) || search re text

/-- `match(re, text)`. -/
def match_ : List UInt8 → List UInt8 → Bool
  | [], text => search [] text
  | c :: re, text => if c = caret then matchhere re text else search (c :: re) text

/-! ## The language of a pattern -/

inductive Item
  | one (c : UInt8)
  | many (c : UInt8)
  deriving DecidableEq

/-- What a byte of a pattern stands for. -/
def Stands (c x : UInt8) : Prop := c = dot ∨ c = x

def single (c : UInt8) : Language UInt8 := {v | ∃ x, v = [x] ∧ Stands c x}

def Item.lang : Item → Language UInt8
  | .one c => single c
  | .many c => (single c)∗

/-- The items of a pattern without its `^`, and whether it ends in the `$` anchor. -/
def parse : List UInt8 → List Item × Bool
  | [] => ([], false)
  | [c] => if c = dollar then ([], true) else ([.one c], false)
  | c :: d :: re =>
    if d = star then (.many c :: (parse re).1, (parse re).2)
    else (.one c :: (parse (d :: re)).1, (parse (d :: re)).2)

structure Pattern where
  start : Bool
  items : List Item
  stop : Bool

def Pattern.read (re : List UInt8) : Pattern :=
  let body := if re.head? = some caret then re.tail else re
  ⟨re.head? = some caret, (parse body).1, (parse body).2⟩

/-- The concatenation of the items' languages. -/
def langOf (items : List Item) : Language UInt8 := (items.map Item.lang).prod

/-- The pattern is found in the text. -/
def Pattern.Finds (p : Pattern) (text : List UInt8) : Prop :=
  ∃ u v w, text = u ++ v ++ w ∧ v ∈ langOf p.items ∧ (p.start = true → u = []) ∧ (p.stop = true → w = [])

/-! ## The matcher -/

variable {c : UInt8} {re text : List UInt8} {here : List UInt8 → Bool}

variable {v : List UInt8} {p : List Item × Bool}

theorem mem_many : v ∈ (Item.many c).lang ↔ ∀ x ∈ v, Stands c x := by
  unfold Item.lang
  rw [Language.mem_kstar]
  constructor
  · intro h x hx
    obtain ⟨L, rfl, hL⟩ := h
    obtain ⟨l, hl, hxl⟩ := List.mem_flatten.mp hx
    obtain ⟨y, rfl, hy⟩ := hL l hl
    rwa [List.mem_singleton.mp hxl]
  · intro h
    refine ⟨v.map fun x => [x], by rw [← List.flatMap_def, List.flatMap_singleton'], ?_⟩
    intro l hl
    obtain ⟨x, hx, rfl⟩ := List.mem_map.mp hl
    exact ⟨x, rfl, h x hx⟩

/-- The head of the text is what the first item stands for. -/
theorem mem_one_mul {L : Language UInt8} :
    v ∈ (Item.one c).lang * L ↔ ∃ x r, v = x :: r ∧ Stands c x ∧ r ∈ L := by
  rw [Language.mem_mul]
  constructor
  · rintro ⟨a, ⟨x, rfl, hx⟩, r, hr, rfl⟩
    exact ⟨x, r, rfl, hx, hr⟩
  · rintro ⟨x, r, rfl, hx, hr⟩
    exact ⟨[x], ⟨x, rfl, hx⟩, r, hr, rfl⟩

theorem matchstar_iff : matchstar here c text = true ↔
    ∃ v w, text = v ++ w ∧ (∀ x ∈ v, Stands c x) ∧ here w = true := by
  induction text with
  | nil =>
    rw [matchstar]
    constructor
    · intro h
      exact ⟨[], [], rfl, by simp, h⟩
    · rintro ⟨v, w, he, _, hw⟩
      rwa [(List.append_eq_nil_iff.mp he.symm).2] at hw
  | cons t text ih =>
    rw [matchstar, Bool.or_eq_true, Bool.and_eq_true, ih]
    constructor
    · intro h
      rcases h with h | ⟨ht, v, w, rfl, hv, hw⟩
      · exact ⟨[], t :: text, rfl, by simp, h⟩
      · refine ⟨t :: v, w, rfl, ?_, hw⟩
        intro x hx
        rcases List.mem_cons.mp hx with rfl | hx
        · simp only [Bool.or_eq_true, beq_iff_eq] at ht
          exact ht.symm.imp_right Eq.symm
        · exact hv x hx
    · rintro ⟨v, w, he, hv, hw⟩
      cases v with
      | nil =>
        rw [List.nil_append] at he
        exact .inl (he ▸ hw)
      | cons x v =>
        obtain ⟨rfl, rfl⟩ := List.cons.inj he
        have ht := hv t List.mem_cons_self
        refine .inr ⟨?_, v, w, rfl, fun y hy => hv y (List.mem_cons_of_mem _ hy), hw⟩
        simp only [Bool.or_eq_true, beq_iff_eq]
        exact ht.symm.imp_left Eq.symm

/-- A text that begins with one of the items' words, and ends there if it must. -/
def Begins (p : List Item × Bool) (text : List UInt8) : Prop :=
  ∃ v w, text = v ++ w ∧ v ∈ langOf p.1 ∧ (p.2 = true → w = [])

/-- One byte of the pattern against one of the text. -/
theorem begins_one : Begins (.one c :: p.1, p.2) text ↔
    ∃ t r, text = t :: r ∧ Stands c t ∧ Begins p r := by
  unfold Begins langOf
  simp only [List.map_cons, List.prod_cons, mem_one_mul]
  constructor
  · rintro ⟨v, w, rfl, ⟨x, r, rfl, hx, hr⟩, hw⟩
    exact ⟨x, r ++ w, rfl, hx, r, w, rfl, hr, hw⟩
  · rintro ⟨t, r, rfl, ht, v, w, rfl, hv, hw⟩
    exact ⟨t :: v, w, rfl, ⟨t, v, rfl, ht, hv⟩, hw⟩

theorem begins_many : Begins (.many c :: p.1, p.2) text ↔
    ∃ v w, text = v ++ w ∧ (∀ x ∈ v, Stands c x) ∧ Begins p w := by
  unfold Begins langOf
  simp only [List.map_cons, List.prod_cons, Language.mem_mul]
  constructor
  · rintro ⟨_, w, rfl, ⟨a, ha, b, hb, rfl⟩, hw⟩
    exact ⟨a, b ++ w, List.append_assoc a b w, mem_many.mp ha, b, w, rfl, hb, hw⟩
  · rintro ⟨a, _, rfl, ha, b, w, rfl, hb, hw⟩
    exact ⟨a ++ b, w, (List.append_assoc a b w).symm, ⟨a, mem_many.mpr ha, b, hb, rfl⟩, hw⟩

/-- The test of one byte, and what the rest of the pattern says of the rest of the text. -/
theorem head_iff {f : List UInt8 → Bool} {P : List UInt8 → Prop} (hf : ∀ r, f r = true ↔ P r) :
    (match text with
      | [] => false
      | t :: r => (c == dot || c == t) && f r) = true ↔ ∃ t r, text = t :: r ∧ Stands c t ∧ P r := by
  cases text with
  | nil => simp
  | cons t r => simp [Stands, hf]

theorem matchhere_iff (re text : List UInt8) : matchhere re text = true ↔ Begins (parse re) text := by
  match re with
  | [] =>
    simp only [matchhere, parse, true_iff]
    exact ⟨[], text, rfl, rfl, by simp⟩
  | [c] =>
    simp only [matchhere, parse]
    by_cases hc : c = dollar
    · rw [if_pos hc, if_pos hc, List.isEmpty_iff]
      constructor
      · intro h
        exact ⟨[], [], h, rfl, fun _ => rfl⟩
      · rintro ⟨v, w, rfl, hv, hw⟩
        rw [hw rfl, List.append_nil]
        exact hv
    · rw [if_neg hc, if_neg hc, begins_one (p := ([], false))]
      have hend : ∀ r, true = true ↔ Begins ([], false) r := fun r => ⟨fun _ => ⟨[], r, rfl, rfl, by simp⟩, fun _ => rfl⟩
      rw [← head_iff hend]
      cases text <;> simp
  | c :: d :: re =>
    simp only [matchhere, parse]
    by_cases hd : d = star
    · rw [if_pos hd, if_pos hd, begins_many, matchstar_iff]
      simp only [matchhere_iff re]
    · rw [if_neg hd, if_neg hd, begins_one, ← head_iff (matchhere_iff (d :: re))]

theorem search_iff : search re text = true ↔ ∃ u r, text = u ++ r ∧ matchhere re r = true := by
  induction text with
  | nil =>
    rw [search]
    constructor
    · intro h
      exact ⟨[], [], rfl, h⟩
    · rintro ⟨u, r, he, hr⟩
      rwa [(List.append_eq_nil_iff.mp he.symm).2] at hr
  | cons t text ih =>
    rw [search, Bool.or_eq_true, ih]
    constructor
    · intro h
      rcases h with h | ⟨u, r, rfl, hr⟩
      · exact ⟨[], t :: text, rfl, h⟩
      · exact ⟨t :: u, r, rfl, hr⟩
    · rintro ⟨u, r, he, hr⟩
      cases u with
      | nil =>
        rw [List.nil_append] at he
        exact .inl (he ▸ hr)
      | cons x u =>
        obtain ⟨rfl, rfl⟩ := List.cons.inj he
        exact .inr ⟨u, r, rfl, hr⟩

theorem match_decides (re text : List UInt8) : match_ re text = true ↔ (Pattern.read re).Finds text := by
  have hanywhere : ∀ re, search re text = true ↔ Pattern.Finds ⟨false, (parse re).1, (parse re).2⟩ text := by
    intro re
    rw [search_iff]
    constructor
    · rintro ⟨u, r, rfl, hr⟩
      obtain ⟨v, w, rfl, hv, hw⟩ := (matchhere_iff re r).mp hr
      exact ⟨u, v, w, (List.append_assoc u v w).symm, hv, by simp, hw⟩
    · rintro ⟨u, v, w, rfl, hv, -, hw⟩
      exact ⟨u, v ++ w, List.append_assoc u v w, (matchhere_iff re _).mpr ⟨v, w, rfl, hv, hw⟩⟩
  cases re with
  | nil => exact hanywhere []
  | cons c re =>
    unfold match_ Pattern.read
    dsimp only
    by_cases hc : c = caret
    · rw [if_pos hc, matchhere_iff]
      simp only [List.head?_cons, hc, List.tail_cons, if_true, decide_true]
      constructor
      · rintro ⟨v, w, rfl, hv, hw⟩
        exact ⟨[], v, w, rfl, hv, fun _ => rfl, hw⟩
      · rintro ⟨u, v, w, rfl, hv, hu, hw⟩
        exact ⟨v, w, by rw [hu rfl, List.nil_append], hv, hw⟩
    · rw [if_neg hc, hanywhere]
      simp [hc]

end Xv6.Grep
