import Mathlib.Data.List.GetD
import HiceDt.Boogie.TreeNode

/-!
# The text of an expression

Model of `Emit` for the expressions of the learner (`Boogie/Source/Core/AbsyExpr.cs`) and of
`ExtendsExpr.EqualityComparer` (`Boogie/Source/Houdini/MLHoudini.cs`, lines 93–136), which
compares expressions by their texts. The expressions that the teacher builds are disjunctions
of conjunctions of literals; different ones have different texts.

Results:

* `filter_emit`: without blanks and parentheses the text does not depend on the context.
* `Learnt.ext`: two such expressions with the same text are equal.
* `constructModel_learnt`: the teacher builds such expressions.
-/

namespace HiceDt.Boogie

open Text Loop Dictionary

/-! ## `Emit` -/

/-- `BplKeywords` (`Core/Util.cs`, lines 92–127). -/
def bplKeywords : List String :=
  ["assert", "assume", "axiom", "bool", "break", "call", "cast", "const", "else", "ensures",
  "exists",
    "false", "forall", "free", "function", "goto", "havoc", "if", "implementation", "int",
    "invariant",
    "modifies", "old", "procedure", "public", "requires", "return", "returns", "true", "type",
    "unique", "var", "where", "while"]

/-- `SanitizeIdentifier` (`Core/Util.cs`, lines 154–166). -/
def sanitizeIdentifier (name : String) : List Char :=
  if name ∈ bplKeywords then '\\' :: name.toList
  else
    match name.toList with
    | 'b' :: 'v' :: c :: rest =>
      if (readInt 32 (c :: rest)).isSome then '\\' :: 'b' :: 'v' :: c :: rest else 'b' :: 'v' ::
        c :: rest
    | cs => cs

/-- A text in parentheses, if they are needed. -/
def parens (needed : Bool) (text : List Char) : List Char :=
  if needed then '(' :: (text ++ [')']) else text

/-- `parensNeeded` of a binary operator (`AbsyExpr.cs`, lines 1386–1389). -/
def parensNeeded (opBindingStrength contextBindingStrength : ℕ) (fragileContext : Bool) : Bool :=
  let opBS := opBindingStrength &&& 0xF0
  let ctxtBS := contextBindingStrength &&& 0xF0
  opBS < ctxtBS ||
    (opBS = ctxtBS && (opBindingStrength ≠ contextBindingStrength || fragileContext))

namespace Expr

/-- `Emit`; the parameters have the given names. -/
def emit (names : List String) : Expr → ℕ → Bool → List Char
  | .ident index _, _, _ => sanitizeIdentifier (names.getD index "")
  | .litBool b, _, _ => if b then "true".toList else "false".toList
  | .litInt n, _, _ => decimalInt n
  | .not a, contextBindingStrength, fragileContext =>
    parens (0x70 < contextBindingStrength || (fragileContext && 0x70 = contextBindingStrength))
      ('!' :: a.emit names 0x70 false)
  | .add a b, contextBindingStrength, fragileContext =>
    parens (parensNeeded 0x40 contextBindingStrength fragileContext)
      (a.emit names 0x40 false ++ " + ".toList ++ b.emit names 0x40 false)
  | .sub a b, contextBindingStrength, fragileContext =>
    parens (parensNeeded 0x40 contextBindingStrength fragileContext)
      (a.emit names 0x40 false ++ " - ".toList ++ b.emit names 0x40 true)
  | .le a b, contextBindingStrength, fragileContext =>
    parens (parensNeeded 0x30 contextBindingStrength fragileContext)
      (a.emit names 0x30 true ++ " <= ".toList ++ b.emit names 0x30 true)
  | .lt a b, contextBindingStrength, fragileContext =>
    parens (parensNeeded 0x30 contextBindingStrength fragileContext)
      (a.emit names 0x30 true ++ " < ".toList ++ b.emit names 0x30 true)
  | .and a b, contextBindingStrength, fragileContext =>
    parens (parensNeeded 0x20 contextBindingStrength fragileContext)
      (a.emit names 0x20 false ++ " && ".toList ++ b.emit names 0x20 false)
  | .or a b, contextBindingStrength, fragileContext =>
    parens (parensNeeded 0x21 contextBindingStrength fragileContext)
      (a.emit names 0x21 false ++ " || ".toList ++ b.emit names 0x21 false)

/-- `EqualityComparer`. -/
def equalityComparer (names : List String) (model newmodel : Expr) : Bool :=
  model.emit names 0 false = newmodel.emit names 0 false

/-! ## Texts without blanks and parentheses -/

/-- The text without blanks and parentheses. -/
def flat (names : List String) : Expr → List Char
  | .ident index _ => sanitizeIdentifier (names.getD index "")
  | .litBool b => if b then "true".toList else "false".toList
  | .litInt n => decimalInt n
  | .not a => '!' :: a.flat names
  | .add a b => a.flat names ++ '+' :: b.flat names
  | .sub a b => a.flat names ++ '-' :: b.flat names
  | .le a b => a.flat names ++ '<' :: '=' :: b.flat names
  | .lt a b => a.flat names ++ '<' :: b.flat names
  | .and a b => a.flat names ++ '&' :: '&' :: b.flat names
  | .or a b => a.flat names ++ '|' :: '|' :: b.flat names

end Expr

/-- Characters that do not occur in an identifier. -/
def delimiters : List Char := [' ', '(', ')', '!', '&', '|', '<', '=', '+', '-', '\\']

/-- A name that the scanner accepts (`Core/BoogiePL.atg`, lines 121–140); a parameter
    without a name has the empty one. -/
def IsIdentifier (name : String) : Prop := ∀ c ∈ name.toList, c ∉ delimiters

/-- Characters that are not blanks or parentheses. -/
def isInk (c : Char) : Bool := c ∉ [' ', '(', ')']

variable {names : List String}

theorem sanitizeIdentifier_cases (name : String) :
    (name ∉ bplKeywords ∧ sanitizeIdentifier name = name.toList) ∨
      sanitizeIdentifier name = '\\' :: name.toList := by
  unfold sanitizeIdentifier
  split_ifs with hkey
  · exact .inr rfl
  · split
    case h_1 c rest heq =>
      split_ifs
      · exact .inr (by rw [heq])
      · exact .inl ⟨hkey, heq.symm⟩
    case h_2 => exact .inl ⟨hkey, rfl⟩

/-- The characters of a printed identifier. -/
theorem not_mem_sanitizeIdentifier {name : String} (h : IsIdentifier name) {c : Char}
    (hc : c ∈ delimiters) (hne : c ≠ '\\') : c ∉ sanitizeIdentifier name := by
  intro hmem
  rcases sanitizeIdentifier_cases name with ⟨-, heq⟩ | heq
  · rw [heq] at hmem
    exact h c hmem hc
  · rw [heq] at hmem
    rcases List.mem_cons.mp hmem with rfl | hmem
    · exact hne rfl
    · exact h c hmem hc

theorem sanitizeIdentifier_injective {name name' : String} (h : IsIdentifier name)
    (h' : IsIdentifier name') (heq : sanitizeIdentifier name = sanitizeIdentifier name') :
    name = name' := by
  have hback : ∀ {n n' : String}, IsIdentifier n → n.toList ≠ '\\' :: n'.toList := by
    intro n n' hn hcons
    exact hn '\\' (hcons ▸ List.mem_cons_self) (by decide)
  rcases sanitizeIdentifier_cases name with ⟨-, h₁⟩ | h₁ <;>
    rcases sanitizeIdentifier_cases name' with ⟨-, h₂⟩ | h₂ <;> rw [h₁, h₂] at heq
  · exact String.toList_inj.mp heq
  · exact absurd heq (hback h)
  · exact absurd heq.symm (hback h')
  · exact String.toList_inj.mp (List.cons.inj heq).2

theorem filter_eq_self_of_ink {l : List Char} (h : ∀ c ∈ l, isInk c = true) : l.filter isInk = l :=
  List.filter_eq_self.mpr h

theorem filter_decimalInt (n : ℤ) : (decimalInt n).filter isInk = decimalInt n := by
  refine filter_eq_self_of_ink fun c hc => ?_
  rw [isInk, decide_eq_true_eq]
  intro hlayout
  have hother : ∀ c ∈ [' ', '(', ')'], c.isDigit = false ∧ c ≠ '-' := by decide
  exact not_mem_decimalInt (hother c hlayout).1 (hother c hlayout).2 hc

theorem filter_sanitizeIdentifier {name : String} (h : IsIdentifier name) :
    (sanitizeIdentifier name).filter isInk = sanitizeIdentifier name := by
  refine filter_eq_self_of_ink fun c hc => ?_
  rw [isInk, decide_eq_true_eq]
  intro hlayout
  have hdelim : ∀ c ∈ [' ', '(', ')'], c ∈ delimiters ∧ c ≠ '\\' := by decide
  obtain ⟨hmem, hne⟩ := hdelim c hlayout
  exact not_mem_sanitizeIdentifier h hmem hne hc

theorem filter_parens (needed : Bool) (text : List Char) :
    (parens needed text).filter isInk = text.filter isInk := by
  unfold parens
  split_ifs
  · rw [List.filter_cons_of_neg (by decide), List.filter_append]
    show _ ++ [] = _
    rw [List.append_nil]
  · rfl

/-- The text of an expression without blanks and parentheses does not depend on the
    context. -/
theorem filter_emit (hnames : ∀ name ∈ names, IsIdentifier name) (e : Expr) : ∀ ctx fragile,
    (e.emit names ctx fragile).filter isInk = e.flat names := by
  have hbin : ∀ (l r : List Char) (op op' : List Char), op.filter isInk = op' →
      (l ++ op ++ r).filter isInk = l.filter isInk ++ (op' ++ r.filter isInk) := by
    intro l r op op' hop
    rw [List.filter_append, List.filter_append, hop, List.append_assoc]
  induction e with
  | ident index type =>
    intro ctx fragile
    show (sanitizeIdentifier (names.getD index "")).filter isInk =
      sanitizeIdentifier (names.getD index "")
    by_cases hi : index < names.length
    · rw [List.getD_eq_getElem _ _ hi]
      exact filter_sanitizeIdentifier (hnames _ (List.getElem_mem hi))
    · rw [List.getD_eq_default _ _ (by omega)]
      decide
  | litBool b =>
    intro ctx fragile
    cases b <;> rfl
  | litInt n =>
    intro ctx fragile
    exact filter_decimalInt n
  | not a ih =>
    intro ctx fragile
    rw [Expr.emit, filter_parens, List.filter_cons_of_pos (by decide), ih]
    rfl
  | add a b iha ihb =>
    intro ctx fragile
    rw [Expr.emit, filter_parens, hbin _ _ _ ['+'] (by decide), iha, ihb]
    rfl
  | sub a b iha ihb =>
    intro ctx fragile
    rw [Expr.emit, filter_parens, hbin _ _ _ ['-'] (by decide), iha, ihb]
    rfl
  | le a b iha ihb =>
    intro ctx fragile
    rw [Expr.emit, filter_parens, hbin _ _ _ ['<', '='] (by decide), iha, ihb]
    rfl
  | lt a b iha ihb =>
    intro ctx fragile
    rw [Expr.emit, filter_parens, hbin _ _ _ ['<'] (by decide), iha, ihb]
    rfl
  | and a b iha ihb =>
    intro ctx fragile
    rw [Expr.emit, filter_parens, hbin _ _ _ ['&', '&'] (by decide), iha, ihb]
    rfl
  | or a b iha ihb =>
    intro ctx fragile
    rw [Expr.emit, filter_parens, hbin _ _ _ ['|', '|'] (by decide), iha, ihb]
    rfl

/-! ## Expressions of the teacher -/

/-- A parameter, or the sum or difference of two parameters. -/
inductive Atom where
  | var (i : ℕ)
  | add (i j : ℕ)
  | sub (i j : ℕ)

/-- A literal of a path: a Boolean parameter or its negation, or a comparison with a cut or
    its negation. -/
inductive Literal where
  | pos (i : ℕ)
  | neg (i : ℕ)
  | le (a : Atom) (cut : ℤ)
  | gt (cut : ℤ) (a : Atom)

/-- The expression that `ToBoogieExpr` builds from the attribute. -/
def Atom.toExpr : Atom → Expr
  | .var i => .ident i .int
  | .add i j => .add (.ident i .int) (.ident j .int)
  | .sub i j => .sub (.ident i .int) (.ident j .int)

/-- The expression for a literal. -/
def Literal.toExpr : Literal → Expr
  | .pos i => .ident i .bool
  | .neg i => .not (.ident i .bool)
  | .le a cut => .le a.toExpr (.litInt cut)
  | .gt cut a => .lt (.litInt cut) a.toExpr

/-- The parameters exist. -/
def Atom.Valid (n : ℕ) : Atom → Prop
  | .var i => i < n
  | .add i j => i < n ∧ j < n
  | .sub i j => i < n ∧ j < n

def Literal.Valid (n : ℕ) : Literal → Prop
  | .pos i => i < n
  | .neg i => i < n
  | .le a _ => a.Valid n
  | .gt _ a => a.Valid n

/-- The names of the parameters: different identifiers. -/
structure ValidNames (names : List String) : Prop where
  identifiers : ∀ name ∈ names, IsIdentifier name
  nodup : names.Nodup

section Names

variable (hn : ValidNames names) {i j : ℕ}

include hn

theorem ValidNames.not_mem (hi : i < names.length) {c : Char} (hc : c ∈ delimiters)
    (hne : c ≠ '\\') :
    c ∉ sanitizeIdentifier (names.getD i "") := by
  rw [List.getD_eq_getElem _ _ hi]
  exact not_mem_sanitizeIdentifier (hn.identifiers _ (List.getElem_mem hi)) hc hne

theorem ValidNames.injective (hi : i < names.length) (hj : j < names.length)
    (h : sanitizeIdentifier (names.getD i "") = sanitizeIdentifier (names.getD j "")) : i = j := by
  rw [List.getD_eq_getElem _ _ hi, List.getD_eq_getElem _ _ hj] at h
  have hname := sanitizeIdentifier_injective (hn.identifiers _ (List.getElem_mem hi))
    (hn.identifiers _ (List.getElem_mem hj)) h
  exact (List.Nodup.getElem_inj_iff hn.nodup).mp hname

/-- A delimiter that is not a sign does not occur in an atom. -/
theorem ValidNames.not_mem_atom {a : Atom} (ha : a.Valid names.length) {c : Char}
    (hc : c ∈ delimiters) (hne : c ≠ '\\') (hplus : c ≠ '+') (hminus : c ≠ '-') :
    c ∉ a.toExpr.flat names := by
  cases a with
  | var i => exact hn.not_mem ha hc hne
  | add i j =>
    show c ∉ sanitizeIdentifier _ ++ '+' :: sanitizeIdentifier _
    rw [List.mem_append, List.mem_cons, not_or, not_or]
    exact ⟨hn.not_mem ha.1 hc hne, hplus, hn.not_mem ha.2 hc hne⟩
  | sub i j =>
    show c ∉ sanitizeIdentifier _ ++ '-' :: sanitizeIdentifier _
    rw [List.mem_append, List.mem_cons, not_or, not_or]
    exact ⟨hn.not_mem ha.1 hc hne, hminus, hn.not_mem ha.2 hc hne⟩

/-- A sign in the text of an atom says which kind of atom it is. -/
theorem ValidNames.sign_mem {a : Atom} (ha : a.Valid names.length) :
    ('+' ∈ a.toExpr.flat names → ∃ i j, a = .add i j) ∧
      ('-' ∈ a.toExpr.flat names → ∃ i j, a = .sub i j) := by
  have hplus : ∀ {i}, i < names.length → '+' ∉ sanitizeIdentifier (names.getD i "") := fun hi =>
    hn.not_mem hi (by decide) (by decide)
  have hminus : ∀ {i}, i < names.length → '-' ∉ sanitizeIdentifier (names.getD i "") := fun hi =>
    hn.not_mem hi (by decide) (by decide)
  cases a with
  | var i => exact ⟨fun h => absurd h (hplus ha), fun h => absurd h (hminus ha)⟩
  | add i j =>
    refine ⟨fun _ => ⟨i, j, rfl⟩, fun h => ?_⟩
    have hmem : '-' ∈ sanitizeIdentifier _ ++ '+' :: sanitizeIdentifier _ := h
    rw [List.mem_append, List.mem_cons] at hmem
    rcases hmem with hmem | hmem | hmem
    · exact absurd hmem (hminus ha.1)
    · cases hmem
    · exact absurd hmem (hminus ha.2)
  | sub i j =>
    refine ⟨fun h => ?_, fun _ => ⟨i, j, rfl⟩⟩
    have hmem : '+' ∈ sanitizeIdentifier _ ++ '-' :: sanitizeIdentifier _ := h
    rw [List.mem_append, List.mem_cons] at hmem
    rcases hmem with hmem | hmem | hmem
    · exact absurd hmem (hplus ha.1)
    · cases hmem
    · exact absurd hmem (hplus ha.2)

theorem ValidNames.atom_injective {a a' : Atom} (ha : a.Valid names.length)
    (ha' : a'.Valid names.length) (h : a.toExpr.flat names = a'.toExpr.flat names) : a = a' := by
  obtain ⟨hplus, hminus⟩ := hn.sign_mem ha
  obtain ⟨hplus', hminus'⟩ := hn.sign_mem ha'
  rw [← h] at hplus' hminus'
  cases a with
  | add i j =>
    obtain ⟨i', j', rfl⟩ := hplus' (List.mem_append_right _ List.mem_cons_self)
    have hname : ∀ {k}, k < names.length → '+' ∉ sanitizeIdentifier (names.getD k "") := fun hk =>
      hn.not_mem hk (by decide) (by decide)
    obtain ⟨h₁, h₂⟩ := append_delim_injective (hname ha.1) (hname ha'.1) h
    rw [hn.injective ha.1 ha'.1 h₁, hn.injective ha.2 ha'.2 h₂]
  | sub i j =>
    obtain ⟨i', j', rfl⟩ := hminus' (List.mem_append_right _ List.mem_cons_self)
    have hname : ∀ {k}, k < names.length → '-' ∉ sanitizeIdentifier (names.getD k "") := fun hk =>
      hn.not_mem hk (by decide) (by decide)
    obtain ⟨h₁, h₂⟩ := append_delim_injective (hname ha.1) (hname ha'.1) h
    rw [hn.injective ha.1 ha'.1 h₁, hn.injective ha.2 ha'.2 h₂]
  | var i =>
    cases a' with
    | var j => rw [hn.injective ha ha' h]
    | add i' j' =>
      obtain ⟨k, l, hk⟩ := hplus (h ▸ List.mem_append_right _ List.mem_cons_self)
      cases hk
    | sub i' j' =>
      obtain ⟨k, l, hk⟩ := hminus (h ▸ List.mem_append_right _ List.mem_cons_self)
      cases hk

/-- Characters that join literals do not occur in a literal. -/
theorem ValidNames.not_mem_literal {l : Literal} (hl : l.Valid names.length) {c : Char}
    (hc : c ∈ ['&', '|']) : c ∉ l.toExpr.flat names := by
  have hchar : ∀ c ∈ ['&', '|'], c ∈ delimiters ∧ c ≠ '\\' ∧ c ≠ '+' ∧ c ≠ '-' ∧ c ≠ '!' ∧ c ≠ '<' ∧
      c ≠ '=' ∧ c.isDigit = false := by decide
  obtain ⟨hdelim, hback, hplus, hminus, hnot, hlt, heq, hdigit⟩ := hchar c hc
  have hcut : ∀ n : ℤ, c ∉ decimalInt n := fun n => not_mem_decimalInt hdigit hminus
  cases l with
  | pos i => exact hn.not_mem hl hdelim hback
  | neg i =>
    show c ∉ '!' :: sanitizeIdentifier _
    rw [List.mem_cons, not_or]
    exact ⟨hnot, hn.not_mem hl hdelim hback⟩
  | le a cut =>
    show c ∉ a.toExpr.flat names ++ '<' :: '=' :: decimalInt cut
    rw [List.mem_append, List.mem_cons, List.mem_cons, not_or, not_or, not_or]
    exact ⟨hn.not_mem_atom hl hdelim hback hplus hminus, hlt, heq, hcut cut⟩
  | gt cut a =>
    show c ∉ decimalInt cut ++ '<' :: a.toExpr.flat names
    rw [List.mem_append, List.mem_cons, not_or, not_or]
    exact ⟨hcut cut, hlt, hn.not_mem_atom hl hdelim hback hplus hminus⟩

/-- The signs in the text of a literal say which kind of literal it is. -/
theorem ValidNames.literal_signs {l : Literal} (hl : l.Valid names.length) :
    ('!' ∈ l.toExpr.flat names ↔ ∃ i, l = .neg i) ∧
      ('=' ∈ l.toExpr.flat names ↔ ∃ a cut, l = .le a cut) ∧
      ('<' ∈ l.toExpr.flat names ↔ (∃ a cut, l = .le a cut) ∨ ∃ cut a, l = .gt cut a) := by
  have hatom : ∀ {a : Atom}, a.Valid names.length → '!' ∉ a.toExpr.flat names ∧
      '=' ∉ a.toExpr.flat names ∧ '<' ∉ a.toExpr.flat names := by
    intro a ha
    refine ⟨hn.not_mem_atom ha ?_ ?_ ?_ ?_, hn.not_mem_atom ha ?_ ?_ ?_ ?_,
      hn.not_mem_atom ha ?_ ?_ ?_ ?_⟩ <;> decide
  have hcut : ∀ cut, '!' ∉ decimalInt cut ∧ '=' ∉ decimalInt cut ∧ '<' ∉ decimalInt cut := by
    intro cut
    refine ⟨not_mem_decimalInt ?_ ?_, not_mem_decimalInt ?_ ?_, not_mem_decimalInt ?_ ?_⟩ <;> decide
  cases l with
  | pos i =>
    have hname := hatom (a := .var i) hl
    simp only [Atom.toExpr, Expr.flat] at hname
    simpa [Literal.toExpr, Expr.flat] using hname
  | neg i =>
    have hname := hatom (a := .var i) hl
    simp only [Atom.toExpr, Expr.flat] at hname
    simpa [Literal.toExpr, Expr.flat] using hname.2
  | le a cut => simp [Literal.toExpr, Expr.flat, hatom hl, hcut cut]
  | gt cut a => simp [Literal.toExpr, Expr.flat, hatom hl, hcut cut]

/-- Different literals have different texts. -/
theorem ValidNames.literal_injective {l l' : Literal} (hl : l.Valid names.length)
    (hl' : l'.Valid names.length) (h : l.toExpr.flat names = l'.toExpr.flat names) : l = l' := by
  have hsigns := hn.literal_signs hl
  rw [h] at hsigns
  obtain ⟨hnot, hle, hlt⟩ := hn.literal_signs hl'
  rw [hsigns.1] at hnot
  rw [hsigns.2.1] at hle
  rw [hsigns.2.2] at hlt
  have hatom : ∀ {a : Atom}, a.Valid names.length → '<' ∉ a.toExpr.flat names := fun ha =>
    hn.not_mem_atom ha (by decide) (by decide) (by decide) (by decide)
  have hcut : ∀ cut, '<' ∉ decimalInt cut := fun cut => not_mem_decimalInt (by decide) (by decide)
  cases l with
  | neg i =>
    obtain ⟨i', rfl⟩ := hnot.mp ⟨i, rfl⟩
    rw [hn.injective hl hl' (List.cons.inj h).2]
  | le a cut =>
    obtain ⟨a', cut', rfl⟩ := hle.mp ⟨a, cut, rfl⟩
    obtain ⟨htext, hrest⟩ := append_delim_injective (hatom hl) (hatom hl') h
    rw [hn.atom_injective hl hl' htext, decimalInt_injective (List.cons.inj hrest).2]
  | gt cut a =>
    rcases hlt.mp (.inr ⟨cut, a, rfl⟩) with hkind | ⟨cut', a', rfl⟩
    · obtain ⟨b, k, hb⟩ := hle.mpr hkind
      cases hb
    · obtain ⟨htext, hrest⟩ := append_delim_injective (hcut cut) (hcut cut') h
      rw [decimalInt_injective htext, hn.atom_injective hl hl' hrest]
  | pos i =>
    cases l' with
    | pos i' => rw [hn.injective hl hl' h]
    | neg i' =>
      obtain ⟨j, hj⟩ := hnot.mpr ⟨i', rfl⟩
      cases hj
    | le a' cut' =>
      obtain ⟨b, k, hb⟩ := hle.mpr ⟨a', cut', rfl⟩
      cases hb
    | gt cut' a' =>
      rcases hlt.mpr (.inr ⟨cut', a', rfl⟩) with ⟨b, k, hb⟩ | ⟨k, b, hb⟩
      · cases hb
      · cases hb

/-- Keywords are not printed as identifiers. -/
theorem ValidNames.literal_ne_keyword {l : Literal} (hl : l.Valid names.length) {word : String}
    (hword : word ∈ ["true", "false"]) : l.toExpr.flat names ≠ word.toList := by
  have hletters : ∀ word ∈ ["true", "false"], word ∈ bplKeywords ∧ '!' ∉ word.toList ∧
      '<' ∉ word.toList ∧ '\\' ∉ word.toList := by decide
  obtain ⟨hkey, hnot, hlt, hback⟩ := hletters word hword
  intro h
  have hsigns := hn.literal_signs hl
  rw [h] at hsigns
  cases l with
  | neg i => exact hnot (hsigns.1.mpr ⟨i, rfl⟩)
  | le a cut => exact hlt (hsigns.2.2.mpr (.inl ⟨a, cut, rfl⟩))
  | gt cut a => exact hlt (hsigns.2.2.mpr (.inr ⟨cut, a, rfl⟩))
  | pos i =>
    have htext : sanitizeIdentifier (names.getD i "") = word.toList := h
    rcases sanitizeIdentifier_cases (names.getD i "") with ⟨hne, heq⟩ | heq
    · rw [heq] at htext
      rw [String.toList_inj.mp htext] at hne
      exact hne hkey
    · rw [heq] at htext
      exact hback (htext ▸ List.mem_cons_self)

end Names

/-- The text of a conjunction. -/
def clauseText (names : List String) (c : List Literal) : List Char :=
  joined '&' "true".toList (c.map fun l => l.toExpr.flat names)

/-- The text of a disjunction. -/
def formulaText (names : List String) (L : List (List Literal)) : List Char :=
  joined '|' "false".toList (L.map (clauseText names))

/-- The parameters of all literals exist. -/
def ValidClause (n : ℕ) (c : List Literal) : Prop := ∀ l ∈ c, l.Valid n

theorem eq_of_map_eq {α β : Type} {f : α → β} {l l' : List α}
    (hinj : ∀ x ∈ l, ∀ y ∈ l', f x = f y → x = y) (h : l.map f = l'.map f) : l = l' := by
  induction l generalizing l' with
  | nil => exact (List.map_eq_nil_iff.mp h.symm).symm
  | cons x l ih =>
    cases l' with
    | nil => cases h
    | cons y l' =>
      obtain ⟨hxy, hrest⟩ := List.cons.inj h
      rw [hinj x List.mem_cons_self y List.mem_cons_self hxy, ih ?_ hrest]
      exact fun a ha b hb => hinj a (List.mem_cons_of_mem _ ha) b (List.mem_cons_of_mem _ hb)

section Texts

variable (hn : ValidNames names) {c c' : List Literal} {L L' : List (List Literal)}

include hn

theorem clause_items (hc : ValidClause names.length c) :
    ∀ x ∈ c.map fun l => l.toExpr.flat names, '&' ∉ x ∧ x ≠ "true".toList := by
  intro x hx
  obtain ⟨l, hl, rfl⟩ := List.mem_map.mp hx
  exact ⟨hn.not_mem_literal (hc l hl) (by decide), hn.literal_ne_keyword (hc l hl) (by decide)⟩

theorem clauseText_injective (hc : ValidClause names.length c) (hc' : ValidClause names.length c')
    (h : clauseText names c = clauseText names c') : c = c' := by
  have hmap := joined_injective (by decide) (clause_items hn hc) (clause_items hn hc') h
  exact eq_of_map_eq (fun l hl l' hl' => hn.literal_injective (hc l hl) (hc' l' hl')) hmap

theorem clauseText_ne_false (hc : ValidClause names.length c) :
    clauseText names c ≠ "false".toList := by
  intro h
  match c with
  | [] =>
    have hwords : "true".toList ≠ "false".toList := by decide
    exact hwords h
  | [l] =>
    have hword : "false" ∈ ["true", "false"] := by decide
    exact hn.literal_ne_keyword (hc l List.mem_cons_self) hword ((List.append_nil _).symm.trans h)
  | l :: l' :: c =>
    have hmem : '&' ∈ clauseText names (l :: l' :: c) := delim_mem_joined_cons _ _ _ _
    rw [h] at hmem
    exact absurd hmem (by decide)

theorem formula_items (hL : ∀ c ∈ L, ValidClause names.length c) :
    ∀ x ∈ L.map (clauseText names), '|' ∉ x ∧ x ≠ "false".toList := by
  intro x hx
  obtain ⟨c, hc, rfl⟩ := List.mem_map.mp hx
  refine ⟨not_mem_joined (by decide) (by decide) fun y hy => ?_, clauseText_ne_false hn (hL c hc)⟩
  obtain ⟨l, hl, rfl⟩ := List.mem_map.mp hy
  exact hn.not_mem_literal (hL c hc l hl) (by decide)

theorem formulaText_injective (hL : ∀ c ∈ L, ValidClause names.length c)
    (hL' : ∀ c ∈ L', ValidClause names.length c) (h : formulaText names L = formulaText names L') :
    L = L' := by
  have hmap := joined_injective (by decide) (formula_items hn hL) (formula_items hn hL') h
  exact eq_of_map_eq (fun c hc c' hc' => clauseText_injective hn (hL c hc) (hL' c' hc')) hmap

end Texts

/-! ## Expressions of trees -/

/-- The conjunction of some literals. -/
def clauseExpr (c : List Literal) : Expr := makeConjunction (c.map Literal.toExpr)

theorem literal_ne_litBool (l : Literal) (b : Bool) : l.toExpr ≠ .litBool b := by
  cases l <;> exact Expr.noConfusion

/-- Conjunctions and disjunctions of expressions that are not literals `true` or `false`. -/
theorem flat_foldl {op : Expr → Expr → Expr} {con : Expr → Expr → Expr} {delim : Char}
    (hop : ∀ a b, (∀ v, a ≠ .litBool v) → (∀ v, b ≠ .litBool v) → op a b = con a b)
    (hcon : ∀ a b v, con a b ≠ .litBool v)
    (hflat : ∀ a b, (con a b).flat names = a.flat names ++ delim :: delim :: b.flat names) :
    ∀ {l : List Expr} {e : Expr}, (∀ v, e ≠ .litBool v) → (∀ x ∈ l, ∀ v, x ≠ .litBool v) →
      (∀ v, l.foldl op e ≠ .litBool v) ∧
        (l.foldl op e).flat names =
          e.flat names ++ (l.map (Expr.flat names)).flatMap fun x => delim :: delim :: x := by
  intro l
  induction l with
  | nil =>
    intro e he _
    exact ⟨he, (List.append_nil _).symm⟩
  | cons x l ih =>
    intro e he hl
    have hx := hl x List.mem_cons_self
    rw [List.foldl_cons, hop e x he hx]
    obtain ⟨hne, htext⟩ := ih (hcon e x) fun y hy => hl y (List.mem_cons_of_mem _ hy)
    refine ⟨hne, ?_⟩
    rw [htext, hflat, List.map_cons, List.flatMap_cons, List.append_assoc, List.cons_append,
      List.cons_append]

theorem flat_clauseExpr (l : Literal) (c : List Literal) :
    (∀ v, clauseExpr (l :: c) ≠ .litBool v) ∧
      (clauseExpr (l :: c)).flat names = clauseText names (l :: c) := by
  have hne : ∀ x ∈ c.map Literal.toExpr, ∀ v, x ≠ .litBool v := by
    intro x hx
    obtain ⟨l', -, rfl⟩ := List.mem_map.mp hx
    exact literal_ne_litBool l'
  obtain ⟨h, htext⟩ := @flat_foldl names .mkAnd .and '&' (fun a b ha hb => by
    rw [Expr.mkAnd, if_neg (ha _), if_neg (hb _), if_neg (by rintro (h | h) <;> simp_all)])
    (fun _ _ _ => Expr.noConfusion) (fun _ _ => rfl) _ _ (literal_ne_litBool l) hne
  exact ⟨h, htext.trans (by rw [List.map_map]; rfl)⟩

/-- The disjunction of some conjunctions of literals, as a tree gives it: only a tree
    without splits gives a conjunction of no literals. -/
def formulaExpr (L : List (List Literal)) : Expr := makeDisjunction (L.map clauseExpr)

/-- An expression of the teacher for a function with `n` parameters. -/
def Learnt (n : ℕ) (e : Expr) : Prop :=
  ∃ L : List (List Literal), (∀ c ∈ L, ValidClause n c) ∧ (L = [[]] ∨ ∀ c ∈ L, c ≠ []) ∧
    e = formulaExpr L

theorem flat_formulaExpr {L : List (List Literal)} (hL : L = [[]] ∨ ∀ c ∈ L, c ≠ []) :
    (formulaExpr L).flat names = formulaText names L := by
  have hclause : ∀ c : List Literal, c ≠ [] → (∀ v, clauseExpr c ≠ .litBool v) ∧
      (clauseExpr c).flat names = clauseText names c := by
    intro c hc
    cases c with
    | nil => exact absurd rfl hc
    | cons l c => exact flat_clauseExpr l c
  rcases hL with rfl | hne
  · rfl
  cases L with
  | nil => rfl
  | cons c L =>
    obtain ⟨hc, htext⟩ := hclause c (hne c List.mem_cons_self)
    have hitems : ∀ x ∈ L.map clauseExpr, ∀ v, x ≠ .litBool v := by
      intro x hx
      obtain ⟨c', hc', rfl⟩ := List.mem_map.mp hx
      exact (hclause c' (hne c' (List.mem_cons_of_mem _ hc'))).1
    have hmap : (L.map clauseExpr).map (Expr.flat names) = L.map (clauseText names) := by
      rw [List.map_map]
      refine List.map_congr_left fun c' hc' => ?_
      exact (hclause c' (hne c' (List.mem_cons_of_mem _ hc'))).2
    obtain ⟨-, hflat⟩ := @flat_foldl names .mkOr .or '|' (fun a b ha hb => by
      rw [Expr.mkOr, if_neg (ha _), if_neg (hb _), if_neg (by rintro (h | h) <;> simp_all)])
      (fun _ _ _ => Expr.noConfusion) (fun _ _ => rfl) _ _ hc hitems
    rw [htext, hmap] at hflat
    exact hflat

/-- Expressions of the teacher with the same text are equal. -/
theorem Learnt.ext (hn : ValidNames names) {e e' : Expr} (h : Learnt names.length e)
    (h' : Learnt names.length e') (htext : Expr.equalityComparer names e e' = true) : e = e' := by
  obtain ⟨L, hL, hshape, rfl⟩ := h
  obtain ⟨L', hL', hshape', rfl⟩ := h'
  have hflat := congrArg (List.filter isInk) (of_decide_eq_true htext)
  rw [filter_emit hn.identifiers, filter_emit hn.identifiers, flat_formulaExpr hshape,
    flat_formulaExpr hshape'] at hflat
  rw [formulaText_injective hn hL hL' hflat]

theorem learnt_litBool (n : ℕ) (b : Bool) : Learnt n (.litBool b) := by
  cases b with
  | true => exact ⟨[[]], by simp [ValidClause], .inl rfl, rfl⟩
  | false => exact ⟨[], by simp, .inr (by simp), rfl⟩

/-! ## `constructModel` -/

variable {f : Function} {n : ℕ}

/-- The expression of an attribute is a Boolean parameter, or an atom. -/
def IsAttribute (n : ℕ) (e : Expr) : Prop :=
  (∃ i < n, e = .ident i .bool) ∨ (∃ i < n, e = .ident i .other) ∨
    ∃ a : Atom, a.Valid n ∧ e = a.toExpr

theorem declared_isAttribute {att : String × Expr} (h : att ∈ f.declared) :
    IsAttribute f.inParams.length att.2 := by
  rw [Function.declared, List.mem_append] at h
  rcases h with h | h
  · obtain ⟨⟨p, i⟩, hx, rfl⟩ := List.mem_map.mp h
    have hi := (List.mem_zipIdx' hx).1
    cases hp : p.type with
    | bool => exact .inl ⟨i, hi, by rw [← hp]⟩
    | int => exact .inr (.inr ⟨.var i, hi, by rw [Atom.toExpr, ← hp]⟩)
    | other => exact .inr (.inl ⟨i, hi, by rw [← hp]⟩)
  · obtain ⟨⟨⟨p, i⟩, ⟨q, j⟩⟩, hx, hatt⟩ := List.mem_flatMap.mp h
    obtain ⟨hp, hq⟩ := Chc.mem_of_mem_pairs hx
    have hi := (List.mem_zipIdx' hp).1
    have hj := (List.mem_zipIdx' hq).1
    unfold derivedAttributes at hatt
    split_ifs at hatt
    · simp only [List.mem_cons, List.not_mem_nil, or_false] at hatt
      rcases hatt with rfl | rfl
      · exact .inr (.inr ⟨.add i j, ⟨hi, hj⟩, rfl⟩)
      · exact .inr (.inr ⟨.sub i j, ⟨hi, hj⟩, rfl⟩)
    · cases hatt

/-- The formulas of a tree: conjunctions of literals that extend the path. -/
theorem pathFormulas_learnt {debug : Bool} {attr2Expr : List (String × Expr)}
    (hattr : ∀ att ∈ attr2Expr, IsAttribute n att.2) (node : TreeNode) :
    ∀ {path : List Literal} {formulas : List Expr}, ValidClause n path →
      pathFormulas debug attr2Expr node (path.map Literal.toExpr) = .ok formulas →
      ∃ L : List (List Literal), (∀ c ∈ L, ValidClause n c) ∧
        (L = [path] ∨ ∀ c ∈ L, path.length < c.length) ∧ formulas = L.map clauseExpr := by
  induction node with
  | null =>
    intro path formulas _ hrun
    obtain ⟨u, -, hrun⟩ := bind_ok.mp hrun
    cases hrun
  | leaf attr cut classification =>
    intro path formulas hpath hrun
    rw [← Except.ok.inj hrun]
    cases classification with
    | true => exact ⟨[path], fun c hc => List.mem_singleton.mp hc ▸ hpath, .inl rfl, rfl⟩
    | false => exact ⟨[], by simp, .inr (by simp), rfl⟩
  | inner attr cut classification length children ih =>
    intro path formulas hpath hrun
    -- the two subtrees extend the path by a literal
    have hchildren : ∀ {l r : Literal} {fl fr : List Expr}, l.Valid n → r.Valid n →
        pathFormulas debug attr2Expr (children 0) (path.map Literal.toExpr ++ [l.toExpr]) = .ok fl →
        pathFormulas debug attr2Expr (children 1) (path.map Literal.toExpr ++ [r.toExpr]) = .ok fr →
        ∃ L : List (List Literal), (∀ c ∈ L, ValidClause n c) ∧
          (L = [path] ∨ ∀ c ∈ L, path.length < c.length) ∧ fl ++ fr = L.map clauseExpr := by
      have hchild : ∀ {i : ℕ} {l : Literal} {fl : List Expr}, l.Valid n →
          pathFormulas debug attr2Expr (children i) (path.map Literal.toExpr ++ [l.toExpr]) =
          .ok fl → ∃ L : List (List Literal), (∀ c ∈ L, ValidClause n c) ∧
            (∀ c ∈ L, path.length < c.length) ∧ fl = L.map clauseExpr := by
        intro i l fl hl hfl
        have hvalid : ValidClause n (path ++ [l]) := by
          intro x hx
          rcases List.mem_append.mp hx with hx | hx
          · exact hpath x hx
          · exact List.mem_singleton.mp hx ▸ hl
        obtain ⟨L, hL, hshape, rfl⟩ := ih i hvalid (by rwa [List.map_append])
        refine ⟨L, hL, fun c hc => ?_, rfl⟩
        have hlen : (path ++ [l]).length = path.length + 1 := List.length_append
        rcases hshape with rfl | hlt
        · rw [List.mem_singleton.mp hc]
          omega
        · have := hlt c hc
          omega
      intro l r fl fr hl hr hfl hfr
      obtain ⟨Ll, hLl, hltl, rfl⟩ := hchild hl hfl
      obtain ⟨Lr, hLr, hltr, rfl⟩ := hchild hr hfr
      refine ⟨Ll ++ Lr, fun c hc => ?_, .inr fun c hc => ?_, List.map_append.symm⟩
      · exact (List.mem_append.mp hc).elim (hLl c) (hLr c)
      · exact (List.mem_append.mp hc).elim (hltl c) (hltr c)
    rw [pathFormulas] at hrun
    obtain ⟨u, -, hrun⟩ := bind_ok.mp hrun
    cases hlookup : attr2Expr.lookup attr with
    | none =>
      rw [hlookup] at hrun
      cases hrun
    | some e =>
      have he := hattr _ (mem_of_lookup hlookup)
      simp only [hlookup] at hrun
      rcases he with ⟨i, hi, rfl⟩ | ⟨i, hi, rfl⟩ | ⟨a, ha, rfl⟩
      · simp only [Expr.shallowType] at hrun
        obtain ⟨u, -, hrun⟩ := bind_ok.mp hrun
        obtain ⟨u, -, hrun⟩ := bind_ok.mp hrun
        split_ifs at hrun
        obtain ⟨fl, hfl, hrun⟩ := bind_ok.mp hrun
        obtain ⟨fr, hfr, hrun⟩ := bind_ok.mp hrun
        rw [← Except.ok.inj hrun]
        exact hchildren (l := .neg i) (r := .pos i) hi hi hfl hfr
      · cases hrun
      · have htype : a.toExpr.shallowType = .int := by cases a <;> rfl
        simp only [htype] at hrun
        obtain ⟨u, -, hrun⟩ := bind_ok.mp hrun
        split_ifs at hrun
        obtain ⟨fl, hfl, hrun⟩ := bind_ok.mp hrun
        obtain ⟨fr, hfr, hrun⟩ := bind_ok.mp hrun
        rw [← Except.ok.inj hrun]
        exact hchildren (l := .le a cut) (r := .gt cut a) ha ha hfl hfr

/-- The teacher builds expressions of this form. -/
theorem constructModel_learnt {debug : Bool} {functionName : String} {root : TreeNode}
    {attribute2Expr : List (String × List (String × Expr))} {functionID : List (String × ℕ)}
    {model : Expr} (hattr : ∀ attr2Expr, attribute2Expr.lookup functionName = some attr2Expr →
      ∀ att ∈ attr2Expr, IsAttribute n att.2)
    (hrun : constructModel debug functionName root attribute2Expr functionID = .ok model) :
    Learnt n model := by
  unfold constructModel at hrun
  obtain ⟨u, -, hrun⟩ := bind_ok.mp hrun
  obtain ⟨u, -, hrun⟩ := bind_ok.mp hrun
  cases root with
  | null => cases hrun
  | leaf attr cut classification =>
    simp only at hrun
    split_ifs at hrun
  | inner attr cut classification length children =>
    simp only at hrun
    split_ifs at hrun
    split at hrun
    case h_1 i attr2Expr hid hlookup =>
      split_ifs at hrun
      · rw [← Except.ok.inj hrun]
        exact learnt_litBool n false
      · obtain ⟨formulas, hformulas, hrun⟩ := bind_ok.mp hrun
        obtain ⟨L, hL, hshape, rfl⟩ := @pathFormulas_learnt n debug attr2Expr (hattr _ hlookup)
          (children i) [] formulas (by simp [ValidClause]) hformulas
        refine ⟨L, hL, hshape.imp id fun hlt c hc => ?_, (Except.ok.inj hrun).symm⟩
        exact List.ne_nil_of_length_pos (hlt c hc)
    case h_2 => cases hrun

end HiceDt.Boogie
