import Mathlib.Data.Nat.Digits.Defs
import Mathlib.Data.Nat.Digits.Lemmas

/-!
# Text files

Decimal numbers and delimited text: how numbers are printed, how an input stream of
C++ reads them back, and how `std::getline` splits a text at a delimiter.

Results:

* `readNat_decimal`, `readInt_decimalInt`, `readUnsigned_decimal`: printed numbers are
  read back.
* `getlines_cons`, `getlines_flatMap`: delimited items are read back.
* `decimalInt_injective`, `joined_injective`: different numbers and different items are
  printed differently.
-/

namespace HiceDt.Text

/-- The characters of a text are checked one after another; an instance that checks all
    characters there are does not compute. -/
instance decidableForallChar (s : List Char) (p : Char → Prop) [DecidablePred p] :
    Decidable (∀ c ∈ s, p c) := List.decidableBAll p s

/-! ## Printing numbers -/

/-- The decimal digits of a number. -/
def decimal (n : ℕ) : List Char :=
  if n = 0 then ['0'] else ((Nat.digits 10 n).map Nat.digitChar).reverse

/-- The decimal digits of an integer, with a sign if it is negative. -/
def decimalInt : ℤ → List Char
  | .ofNat n => decimal n
  | .negSucc n => '-' :: decimal (n + 1)

/-! ## Reading numbers -/

/-- `isspace` in the default locale. -/
def isSpace (c : Char) : Bool := c ∈ [' ', '\t', '\n', '\x0b', '\x0c', '\r']

/-- The value of a decimal digit. -/
def digitValue (c : Char) : ℕ := c.toNat - '0'.toNat

/-- A number that takes up the whole text. -/
def readNat (s : List Char) : Option ℕ :=
  if s ≠ [] ∧ s.all Char.isDigit then some (s.foldl (fun a c => 10 * a + digitValue c) 0) else none

/-- `ss >> value` for an `int` with `w` bits, if the stream does not fail and is at its
    end then. -/
def readInt (w : ℕ) (s : List Char) : Option ℤ := do
  let n ← match s.dropWhile isSpace with
    | '-' :: r => (readNat r).map fun n => -(n : ℤ)
    | '+' :: r => (readNat r).map fun n => (n : ℤ)
    | r => (readNat r).map fun n => (n : ℤ)
  if -2 ^ (w - 1) ≤ n ∧ n < 2 ^ (w - 1) then some n else none

/-- `ss >> value` for an unsigned integer with `w` bits; a negative number is
    converted. -/
def readUnsigned (w : ℕ) (s : List Char) : Option ℕ := do
  let (negative, n) ← match s.dropWhile isSpace with
    | '-' :: r => (readNat r).map fun n => (true, n)
    | '+' :: r => (readNat r).map fun n => (false, n)
    | r => (readNat r).map fun n => (false, n)
  if n < 2 ^ w then some (if negative then (2 ^ w - n) % 2 ^ w else n) else none

/-- The integer that a text denotes. -/
def integer (s : List Char) : Option ℤ :=
  match s.dropWhile isSpace with
  | '-' :: r => (readNat r).map fun n => -(n : ℤ)
  | '+' :: r => (readNat r).map fun n => (n : ℤ)
  | r => (readNat r).map fun n => (n : ℤ)

/-! ## Splitting -/

/-- The items that `std::getline (s, item, delim)` reads until it fails. -/
def getlines (delim : Char) : List Char → List (List Char)
  | [] => []
  | c :: cs =>
    if c = delim then [] :: getlines delim cs
    else match getlines delim cs with
      | [] => [[c]]
      | item :: items => (c :: item) :: items

/-! ## Unsigned numbers -/

/-- A negative number is converted modulo `2 ^ w`. -/
theorem cast_negative {w n : ℕ} (h : n < 2 ^ w) :
    (((2 ^ w - n) % 2 ^ w : ℕ) : ℤ) = -(n : ℤ) % 2 ^ w := by
  rw [Int.natCast_mod, Nat.cast_sub h.le]
  push_cast
  rw [sub_eq_neg_add, Int.add_emod_right]

/-- The bound is on the absolute value, and the result is converted. -/
theorem readUnsigned_eq_some {w value : ℕ} {s : List Char} :
    readUnsigned w s = some value ↔
      ∃ z, integer s = some z ∧ z.natAbs < 2 ^ w ∧ (value : ℤ) = z % 2 ^ w := by
  have hsome : ∀ (z : ℤ) (n v : ℕ), z.natAbs = n → (n < 2 ^ w → (v : ℤ) = z % 2 ^ w) →
      ((if n < 2 ^ w then some v else none) = some value ↔
        ∃ z', some z = some z' ∧ z'.natAbs < 2 ^ w ∧ (value : ℤ) = z' % 2 ^ w) := by
    intro z n v hn hv
    constructor
    · intro h
      split_ifs at h with hlt
      exact ⟨z, rfl, hn ▸ hlt, Option.some.inj h ▸ hv hlt⟩
    · rintro ⟨z', hz', hlt, hvalue⟩
      obtain rfl := Option.some.inj hz'
      rw [hn] at hlt
      rw [if_pos hlt]
      exact congrArg some (by exact_mod_cast (hv hlt).trans hvalue.symm)
  have hpositive : ∀ r : List Char,
      ((readNat r).map fun n => (false, n)).bind (fun x => if x.2 < 2 ^ w then
        some (if x.1 then (2 ^ w - x.2) % 2 ^ w else x.2) else none) = some value ↔
      ∃ z, ((readNat r).map fun n => (n : ℤ)) = some z ∧ z.natAbs < 2 ^ w ∧
      (value : ℤ) = z % 2 ^ w := by
    intro r
    cases readNat r with
    | none => simp
    | some n =>
      refine hsome n n n (Int.natAbs_natCast n) fun hlt => ?_
      rw [Int.emod_eq_of_lt (Int.natCast_nonneg n) (by exact_mod_cast hlt)]
  unfold readUnsigned integer
  split
  · rename_i r _
    cases readNat r with
    | none => simp
    | some n =>
      refine hsome (-n) n _ ?_ fun hlt => cast_negative hlt
      rw [Int.natAbs_neg, Int.natAbs_natCast]
  · exact hpositive _
  · exact hpositive _

/-! ## Printed numbers are read back -/

theorem digitValue_digitChar : ∀ d < 10, digitValue (Nat.digitChar d) = d := by decide

theorem isDigit_digitChar : ∀ d < 10, (Nat.digitChar d).isDigit = true := by decide

theorem decimal_ne_nil (n : ℕ) : decimal n ≠ [] := by
  unfold decimal
  split_ifs with h
  · simp
  · simpa [Nat.digits_eq_nil_iff_eq_zero] using h

theorem isDigit_of_mem_decimal {n : ℕ} {c : Char} (h : c ∈ decimal n) : c.isDigit = true := by
  unfold decimal at h
  split_ifs at h with hn
  · rw [List.mem_singleton.mp h]
    rfl
  · rw [List.mem_reverse, List.mem_map] at h
    obtain ⟨d, hd, rfl⟩ := h
    exact isDigit_digitChar d (Nat.digits_lt_base (by omega) hd)

theorem foldr_digits (l : List ℕ) (h : ∀ d ∈ l, d < 10) :
    (l.map Nat.digitChar).foldr (fun c a => 10 * a + digitValue c) 0 = Nat.ofDigits 10 l := by
  induction l with
  | nil => rfl
  | cons d l ih =>
    have hd := digitValue_digitChar d (h d List.mem_cons_self)
    rw [List.map_cons, List.foldr_cons, ih fun e he => h e (List.mem_cons_of_mem _ he), hd,
      Nat.ofDigits_cons]
    omega

/-- A printed number is read back. -/
theorem readNat_decimal (n : ℕ) : readNat (decimal n) = some n := by
  have hall : (decimal n).all Char.isDigit = true :=
    List.all_eq_true.mpr fun c hc => isDigit_of_mem_decimal hc
  rw [readNat, if_pos ⟨decimal_ne_nil n, hall⟩]
  congr 1
  unfold decimal
  split_ifs with h
  · rw [h]
    rfl
  · rw [List.foldl_reverse, foldr_digits _ fun d hd => Nat.digits_lt_base (by omega) hd,
      Nat.ofDigits_digits]

theorem ne_of_isDigit {c d : Char} (hc : c.isDigit = true) (hd : d.isDigit = false) : c ≠ d := by
  rintro rfl
  rw [hc] at hd
  cases hd

theorem isSpace_of_isDigit {c : Char} (h : c.isDigit = true) : isSpace c = false := by
  have hne : ∀ d ∈ [' ', '\t', '\n', '\x0b', '\x0c', '\r'], d.isDigit = false := by decide
  rw [isSpace, decide_eq_false_iff_not]
  intro hmem
  rw [hne c hmem] at h
  cases h

theorem decimal_cons (n : ℕ) : ∃ c cs, decimal n = c :: cs ∧ c.isDigit = true := by
  cases h : decimal n with
  | nil => exact absurd h (decimal_ne_nil n)
  | cons c cs => exact ⟨c, cs, rfl, isDigit_of_mem_decimal (h ▸ List.mem_cons_self)⟩

theorem dropWhile_decimal (n : ℕ) : (decimal n).dropWhile isSpace = decimal n := by
  obtain ⟨c, cs, hc, hdigit⟩ := decimal_cons n
  rw [hc, List.dropWhile_cons_of_neg]
  rw [isSpace_of_isDigit hdigit]
  simp

theorem readUnsigned_decimal {w n : ℕ} (h : n < 2 ^ w) : readUnsigned w (decimal n) = some n := by
  obtain ⟨c, cs, hc, hdigit⟩ := decimal_cons n
  have hminus : c ≠ '-' := ne_of_isDigit hdigit rfl
  have hplus : c ≠ '+' := ne_of_isDigit hdigit rfl
  have hread := readNat_decimal n
  rw [readUnsigned, dropWhile_decimal]
  rw [hc] at hread ⊢
  split
  case h_1 heq => exact absurd (List.cons.inj heq).1 hminus
  case h_2 heq => exact absurd (List.cons.inj heq).1 hplus
  case h_3 =>
    rw [hread]
    simp [h]

theorem integer_decimal (n : ℕ) : integer (decimal n) = some (n : ℤ) := by
  obtain ⟨c, cs, hc, hdigit⟩ := decimal_cons n
  have hminus : c ≠ '-' := ne_of_isDigit hdigit rfl
  have hplus : c ≠ '+' := ne_of_isDigit hdigit rfl
  have hread := readNat_decimal n
  rw [integer, dropWhile_decimal]
  rw [hc] at hread ⊢
  split
  case h_1 heq => exact absurd (List.cons.inj heq).1 hminus
  case h_2 heq => exact absurd (List.cons.inj heq).1 hplus
  case h_3 =>
    rw [hread]
    rfl

/-- A printed integer denotes itself. -/
theorem integer_decimalInt (n : ℤ) : integer (decimalInt n) = some n := by
  cases n with
  | ofNat n => exact integer_decimal n
  | negSucc n =>
    have hdrop : ('-' :: decimal (n + 1)).dropWhile isSpace = '-' :: decimal (n + 1) :=
      List.dropWhile_cons_of_neg (by decide)
    rw [integer, decimalInt, hdrop]
    simp only [readNat_decimal]
    rfl

/-- A printed integer is read back if it fits. -/
theorem readInt_decimalInt {w : ℕ} {n : ℤ} (hlow : -2 ^ (w - 1) ≤ n) (hhigh : n < 2 ^ (w - 1)) :
    readInt w (decimalInt n) = some n := by
  have hread : readInt w (decimalInt n) = (integer (decimalInt n)).bind fun n =>
      if -2 ^ (w - 1) ≤ n ∧ n < 2 ^ (w - 1) then some n else none := by
    unfold readInt integer
    split <;> rfl
  rw [hread, integer_decimalInt]
  exact if_pos ⟨hlow, hhigh⟩

/-- A printed integer is converted if its absolute value fits. -/
theorem readUnsigned_decimalInt {w value : ℕ} {n : ℤ} (h : n.natAbs < 2 ^ w)
    (hvalue : (value : ℤ) = n % 2 ^ w) : readUnsigned w (decimalInt n) = some value :=
  readUnsigned_eq_some.mpr ⟨n, integer_decimalInt n, h, hvalue⟩

theorem decimalInt_cons (n : ℤ) :
    ∃ c cs, decimalInt n = c :: cs ∧ (c.isDigit = true ∨ c = '-') := by
  cases n with
  | ofNat n =>
    obtain ⟨c, cs, hc, hdigit⟩ := decimal_cons n
    exact ⟨c, cs, hc, .inl hdigit⟩
  | negSucc n => exact ⟨'-', decimal (n + 1), rfl, .inr rfl⟩

/-- The characters of printed integers. -/
theorem not_mem_decimalInt {n : ℤ} {c : Char} (hc : c.isDigit = false) (hminus : c ≠ '-') :
    c ∉ decimalInt n := by
  intro h
  cases n with
  | ofNat n => exact ne_of_isDigit (isDigit_of_mem_decimal h) hc rfl
  | negSucc n =>
    rcases List.mem_cons.mp h with h | h
    · exact hminus h
    · exact ne_of_isDigit (isDigit_of_mem_decimal h) hc rfl

/-! ## Delimited items are read back -/

variable {delim : Char}

/-- An item ends at the delimiter. -/
theorem getlines_cons {item rest : List Char} (h : delim ∉ item) :
    getlines delim (item ++ delim :: rest) = item :: getlines delim rest := by
  induction item with
  | nil => simp [getlines]
  | cons c cs ih =>
    obtain ⟨hc, hcs⟩ := not_or.mp (mt List.mem_cons.mpr h)
    rw [List.cons_append, getlines, if_neg fun e => hc e.symm, ih hcs]

/-- The last item needs no delimiter. -/
theorem getlines_last {item : List Char} (h : delim ∉ item) (hne : item ≠ []) :
    getlines delim item = [item] := by
  induction item with
  | nil => exact absurd rfl hne
  | cons c cs ih =>
    obtain ⟨hc, hcs⟩ := not_or.mp (mt List.mem_cons.mpr h)
    rw [getlines, if_neg fun e => hc e.symm]
    by_cases hnil : cs = []
    · rw [hnil]
      rfl
    · rw [ih hcs hnil]

/-- Items that are all followed by the delimiter. -/
theorem getlines_flatMap {items : List (List Char)} {rest : List Char}
    (h : ∀ item ∈ items, delim ∉ item) :
    getlines delim ((items.flatMap fun item => item ++ [delim]) ++ rest) =
      items ++ getlines delim rest := by
  induction items with
  | nil => rfl
  | cons item items ih =>
    rw [List.flatMap_cons, List.append_assoc, List.append_assoc, List.singleton_append,
      getlines_cons (h item List.mem_cons_self), ih fun i hi => h i (List.mem_cons_of_mem _ hi),
      List.cons_append]

/-! ## Different items are printed differently -/

theorem decimalInt_injective {n n' : ℤ} (h : decimalInt n = decimalInt n') : n = n' := by
  have hread : ∀ {a b : ℕ}, decimal a = decimal b → a = b := by
    intro a b hab
    have hsome := readNat_decimal a
    rw [hab, readNat_decimal] at hsome
    exact (Option.some.inj hsome).symm
  have hsign : ∀ {a b : ℕ}, decimal a ≠ '-' :: decimal b := by
    intro a b hab
    have hmem : '-' ∈ decimal a := hab ▸ List.mem_cons_self
    exact ne_of_isDigit (isDigit_of_mem_decimal hmem) rfl rfl
  match n, n' with
  | .ofNat a, .ofNat b => rw [hread h]
  | .ofNat a, .negSucc b => exact absurd h hsign
  | .negSucc a, .ofNat b => exact absurd h.symm hsign
  | .negSucc a, .negSucc b =>
    have hab := hread (List.cons.inj h).2
    rw [show a = b by omega]

/-- The first delimiter ends the first item. -/
theorem append_delim_injective {a b r s : List Char} (ha : delim ∉ a) (hb : delim ∉ b)
    (h : a ++ delim :: r = b ++ delim :: s) : a = b ∧ r = s := by
  induction a generalizing b with
  | nil =>
    cases b with
    | nil => exact ⟨rfl, (List.cons.inj h).2⟩
    | cons c b =>
      have hc : delim = c := (List.cons.inj h).1
      exact absurd (hc ▸ List.mem_cons_self) hb
  | cons c a ih =>
    cases b with
    | nil =>
      have hc : c = delim := (List.cons.inj h).1
      exact absurd (hc ▸ List.mem_cons_self) ha
    | cons c' b =>
      obtain ⟨rfl, htail⟩ := List.cons.inj h
      obtain ⟨rfl, rfl⟩ := ih (fun hm => ha (List.mem_cons_of_mem _ hm))
        (fun hm => hb (List.mem_cons_of_mem _ hm)) htail
      exact ⟨rfl, rfl⟩

/-- The items, each but the first one after two delimiters; the text `empty` if there are
    none. -/
def joined (delim : Char) (empty : List Char) : List (List Char) → List Char
  | [] => empty
  | a :: l => a ++ l.flatMap fun x => delim :: delim :: x

/-- Items without the delimiter. -/
theorem delimited_injective {l l' : List (List Char)} : ∀ {a b : List Char}, delim ∉ a → delim ∉ b →
    (∀ x ∈ l, delim ∉ x) → (∀ x ∈ l', delim ∉ x) →
    a ++ l.flatMap (fun x => delim :: delim :: x) = b ++ l'.flatMap (fun x => delim :: delim :: x) →
    a = b ∧ l = l' := by
  induction l generalizing l' with
  | nil =>
    intro a b ha _ _ _ h
    cases l' with
    | nil =>
      rw [List.flatMap_nil, List.append_nil, List.append_nil] at h
      exact ⟨h, rfl⟩
    | cons x l' =>
      rw [List.flatMap_nil, List.append_nil] at h
      refine absurd ?_ ha
      rw [h]
      simp
  | cons x l ih =>
    intro a b ha hb hl hl' h
    cases l' with
    | nil =>
      rw [List.flatMap_nil, List.append_nil] at h
      refine absurd ?_ hb
      rw [← h]
      simp
    | cons x' l' =>
      rw [List.flatMap_cons, List.flatMap_cons, List.cons_append, List.cons_append] at h
      obtain ⟨rfl, hrest⟩ := append_delim_injective ha hb h
      obtain ⟨rfl, rfl⟩ := ih (hl x List.mem_cons_self) (hl' x' List.mem_cons_self)
        (fun y hy => hl y (List.mem_cons_of_mem _ hy))
        (fun y hy => hl' y (List.mem_cons_of_mem _ hy)) (List.cons.inj hrest).2
      exact ⟨rfl, rfl⟩

theorem delim_mem_joined_cons (empty a x : List Char) (l : List (List Char)) :
    delim ∈ joined delim empty (a :: x :: l) :=
  List.mem_append_right _ List.mem_cons_self

theorem joined_injective {empty : List Char} (hempty : delim ∉ empty) {l l' : List (List Char)}
    (hl : ∀ x ∈ l, delim ∉ x ∧ x ≠ empty) (hl' : ∀ x ∈ l', delim ∉ x ∧ x ≠ empty)
    (h : joined delim empty l = joined delim empty l') : l = l' := by
  have hne : ∀ {a : List Char} {l : List (List Char)}, a ≠ empty →
      joined delim empty (a :: l) ≠ empty := by
    intro a l ha hjoined
    cases l with
    | nil => exact ha ((List.append_nil a).symm.trans hjoined)
    | cons x l => exact hempty (hjoined ▸ delim_mem_joined_cons empty a x l)
  match l, l' with
  | [], [] => rfl
  | [], b :: l' => exact absurd h.symm (hne (hl' b List.mem_cons_self).2)
  | a :: l, [] => exact absurd h (hne (hl a List.mem_cons_self).2)
  | a :: l, b :: l' =>
    obtain ⟨rfl, rfl⟩ := delimited_injective (hl a List.mem_cons_self).1
      (hl' b List.mem_cons_self).1 (fun x hx => (hl x (List.mem_cons_of_mem _ hx)).1)
      (fun x hx => (hl' x (List.mem_cons_of_mem _ hx)).1) h
    rfl

theorem not_mem_joined {c : Char} {empty : List Char} {l : List (List Char)} (hempty : c ∉ empty)
    (hdelim : c ≠ delim) (hl : ∀ x ∈ l, c ∉ x) : c ∉ joined delim empty l := by
  cases l with
  | nil => exact hempty
  | cons a l =>
    intro hmem
    rcases List.mem_append.mp hmem with hmem | hmem
    · exact hl a List.mem_cons_self hmem
    · obtain ⟨x, hx, hmem⟩ := List.mem_flatMap.mp hmem
      simp only [List.mem_cons, hdelim, false_or] at hmem
      exact hl x (List.mem_cons_of_mem _ hx) hmem

end HiceDt.Text
