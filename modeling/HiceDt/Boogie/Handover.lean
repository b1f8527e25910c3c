import HiceDt.Boogie.Inputs
import HiceDt.Boogie.JsonText

/-!
# The files between the teacher and the learner

The teacher writes the attributes and the intervals at the beginning, and the data points and
Horn clauses before every call of the learner (`Boogie/Source/Houdini/MLHoudini.cs`, lines
520–690, 1673–1757 and 1902–1917); the learner reads all four (`hice-dt/src/hice-dt.cpp`, lines
170–184), and the teacher reads the text of its tree.

Results:

* `readAttributesFile_writeAttributesFile`: the attributes are read back.
* `readInputs_handover`: the learner accepts the four files, and what it reads.
* `decodeText_jsonText`: the teacher reads the nodes that `json_visitor` makes.
-/

namespace HiceDt.Boogie

open Loop Text Dictionary Json Machine

/-! ## Names of attributes -/

/-- The characters of an identifier (`Core/BoogiePL.atg`, lines 121–140). -/
def isIdentChar (c : Char) : Bool := c.isAlphanum || c ∈ "'~#$^_.?`".toList

/-- The names of functions and parameters are identifiers; a parameter without a name has the
    empty one. -/
def Scanned (functions : List Function) : Prop :=
  ∀ f ∈ functions, (∀ c ∈ f.name.toList, isIdentChar c = true) ∧
    ∀ p ∈ f.inParams, ∀ c ∈ p.name.toList, isIdentChar c = true

/-- A character that is read back from the attributes file, and needs no escape. -/
structure IsNameChar (c : Char) : Prop where
  comma : c ≠ ','
  space : isSpace c = false
  plain : IsPlain c

theorem isNameChar_of_toNat {c : Char} (h : 33 ≤ c.toNat) (hc : c ∉ [',', '"', '\\']) :
    IsNameChar c := by
  simp only [List.mem_cons, List.not_mem_nil, or_false, not_or] at hc
  refine ⟨hc.1, ?_, hc.2.1, hc.2.2, by omega⟩
  rw [isSpace, decide_eq_false_iff_not]
  intro hmem
  have hsmall : ∀ d ∈ [' ', '\t', '\n', '\x0b', '\x0c', '\r'], d.toNat < 33 := by decide
  have := hsmall c hmem
  omega

theorem isNameChar_of_isIdentChar {c : Char} (h : isIdentChar c = true) : IsNameChar c := by
  refine isNameChar_of_toNat ?_ fun hmem => ?_
  · rw [isIdentChar, Bool.or_eq_true, decide_eq_true_eq] at h
    rcases h with h | h
    · have hbound : ∀ {d : Char}, 33 ≤ d.val.toNat → d.val ≤ c.val → 33 ≤ c.toNat :=
        fun hd hle => hd.trans (UInt32.le_iff_toNat_le.mp hle)
      rcases Bool.or_eq_true_iff.mp (show (c.isAlpha || c.isDigit) = true from h) with h | h
      · rcases Bool.or_eq_true_iff.mp (show (c.isUpper || c.isLower) = true from h) with h | h
        · have hupper : 'A'.val ≤ c.val ∧ c.val ≤ 'Z'.val := of_decide_eq_true h
          exact hbound (by decide) hupper.1
        · have hlower : (decide ('a'.val ≤ c.val) && decide (c.val ≤ 'z'.val)) = true := h
          exact hbound (by decide) (of_decide_eq_true (Bool.and_eq_true_iff.mp hlower).1)
      · have hdigit : (decide ('0'.val ≤ c.val) && decide (c.val ≤ '9'.val)) = true := h
        exact hbound (by decide) (of_decide_eq_true (Bool.and_eq_true_iff.mp hdigit).1)
    · have hlarge : ∀ d ∈ "'~#$^_.?`".toList, 33 ≤ d.toNat := by decide
      exact hlarge c h
  · have hother : ∀ d ∈ [',', '"', '\\'], isIdentChar d = false := by decide
    rw [hother c hmem] at h
    cases h

variable {functions : List Function} {f : Function} {file : Attributes} {filename : String}

/-- The names of the attributes of a function. -/
theorem declared_isNameChar (h : Scanned functions) (hf : f ∈ functions) {att : String × Expr}
    (hatt : att ∈ f.declared) : ∀ c ∈ att.1.toList, IsNameChar c := by
  have hfun : ∀ c ∈ f.name.toList, IsNameChar c := fun c hc =>
    isNameChar_of_isIdentChar ((h f hf).1 c hc)
  have hparam : ∀ p ∈ f.inParams, ∀ c ∈ p.name.toList, IsNameChar c :=
    fun p hp c hc => isNameChar_of_isIdentChar ((h f hf).2 p hp c hc)
  have hdollar : ∀ c ∈ "$".toList, IsNameChar c := by
    intro c hc
    rw [List.mem_singleton.mp hc]
    exact isNameChar_of_toNat (by decide) (by decide)
  rcases List.mem_append.mp hatt with hatt | hatt
  · obtain ⟨x, hx, rfl⟩ := List.mem_map.mp hatt
    have hp : x.1 ∈ f.inParams := List.fst_mem_of_mem_zipIdx hx
    intro c hc
    simp only [attributeName, attributeDelimiter, String.toList_append, List.mem_append] at hc
    rcases hc with (hc | hc) | hc
    · exact hfun c hc
    · exact hdollar c hc
    · exact hparam _ hp c hc
  · obtain ⟨x, hx, hatt⟩ := List.mem_flatMap.mp hatt
    have hmem := Chc.mem_of_mem_pairs hx
    have hp : x.1.1 ∈ f.inParams := List.fst_mem_of_mem_zipIdx hmem.1
    have hq : x.2.1 ∈ f.inParams := List.fst_mem_of_mem_zipIdx hmem.2
    have hderived : ∀ sign, (∀ c ∈ String.toList sign, IsNameChar c) →
        ∀ c ∈ (derivedName f.name sign x.1.1 x.2.1).toList, IsNameChar c := by
      intro sign hsign c hc
      simp only [derivedName, attrPrefix, attributeDelimiter, String.toList_append,
        List.mem_append] at hc
      rcases hc with ((((hc | hc) | hc) | hc) | hc) | hc
      · exact hdollar c hc
      · exact hfun c hc
      · exact hdollar c hc
      · exact hparam _ hp c hc
      · exact hsign c hc
      · exact hparam _ hq c hc
    unfold derivedAttributes at hatt
    split_ifs at hatt
    · rcases List.mem_pair.mp hatt with rfl | rfl
      · refine hderived "+" fun c hc => ?_
        rw [List.mem_singleton.mp hc]
        exact isNameChar_of_toNat (by decide) (by decide)
      · refine hderived "-" fun c hc => ?_
        rw [List.mem_singleton.mp hc]
        exact isNameChar_of_toNat (by decide) (by decide)
    · cases hatt

/-! ## The attributes file is read back -/

theorem trim_eq_self {str : List Char} (h : ∀ c ∈ str, isSpace c = false) : trim str = str := by
  have hdrop : ∀ l : List Char, (∀ c ∈ l, isSpace c = false) → l.dropWhile isSpace = l := by
    intro l hl
    cases l with
    | nil => rfl
    | cons c l => rw [List.dropWhile_cons_of_neg (by rw [hl c List.mem_cons_self]; simp)]
  rw [trim, hdrop str h, hdrop _ fun c hc => h c (List.mem_reverse.mp hc), List.reverse_reverse]

/-- The line of an integer attribute. -/
def intLine (name : String) : List Char := "int,".toList ++ name.toList

/-- The names of the attributes are not empty, and have no separators and blanks. -/
def NamesOk (names : List String) : Prop :=
  ∀ name ∈ names, name.toList ≠ [] ∧ ∀ c ∈ name.toList, IsNameChar c

theorem intNames_ok (h : Scanned functions) (hfile : generateAttributesFile functions = .ok file) :
    NamesOk file.metadata.intNames := by
  intro name hname
  rw [Attributes.metadata, intNames_eq hfile] at hname
  obtain ⟨f, hf, hname⟩ := List.mem_flatMap.mp hname
  obtain ⟨att, hatt, rfl⟩ := List.mem_map.mp hname
  exact ⟨List.length_pos_iff.mp (declared_name_pos hatt), declared_isNameChar h hf hatt⟩

theorem isSkipped_intLine (name : String) : isSkipped (intLine name) = false := rfl

theorem not_mem_intLine {name : String} (h : ∀ c ∈ name.toList, IsNameChar c) :
    '\n' ∉ intLine name := by
  intro hmem
  rcases List.mem_append.mp hmem with hmem | hmem
  · exact absurd hmem (by decide)
  · have hspace := (h _ hmem).space
    exact absurd hspace (by decide)

theorem getlines_intLine {name : String} (hne : name.toList ≠ [])
    (h : ∀ c ∈ name.toList, IsNameChar c) : getlines ',' (intLine name) =
      ["int".toList, name.toList] := by
  have hline : intLine name = "int".toList ++ ',' :: name.toList := rfl
  rw [hline, getlines_cons (by decide), getlines_last (fun hmem => (h _ hmem).comma rfl) hne]

theorem readAttributesLine_intLine {name : String} (hne : name.toList ≠ [])
    (h : ∀ c ∈ name.toList, IsNameChar c) (lineNr : ℕ) (s : AttributesMetadata × ℕ) :
    readAttributesLine filename lineNr s (intLine name) =
      .ok ({ s.1 with intNames := s.1.intNames ++ [name] }, if s.2 < 1 then 1 else s.2) := by
  have hcat : ¬ "int".toList = "cat".toList := by decide
  have htrim : String.ofList (trim name.toList) = name := by
    rw [trim_eq_self fun c hc => (h c hc).space, String.ofList_toList]
  unfold readAttributesLine
  simp only [getlines_intLine hne h, List.headD_cons, if_neg hcat, if_true, List.getD_cons_succ,
    List.getD_cons_zero, htrim]
  rfl

/-- The lines of the integer attributes, and an empty line. -/
theorem readAttributesLoop_intLines {names : List String} (h : NamesOk names) :
    ∀ (lineNr : ℕ) (s : AttributesMetadata × ℕ),
      readAttributesLoop filename lineNr s (names.map intLine ++ [[]]) =
        .ok { s.1 with intNames := s.1.intNames ++ names } := by
  induction names with
  | nil =>
    intro lineNr s
    rw [List.append_nil]
    rfl
  | cons name names ih =>
    intro lineNr s
    obtain ⟨hne, hchars⟩ := h name List.mem_cons_self
    rw [List.map_cons, List.cons_append, readAttributesLoop, isSkipped_intLine,
      if_neg Bool.false_ne_true, readAttributesLine_intLine hne hchars]
    show readAttributesLoop filename (lineNr + 1) _ (names.map intLine ++ [[]]) = _
    rw [ih fun n hn => h n (List.mem_cons_of_mem _ hn)]
    simp

/-- The line of the categorical attribute. -/
def catLine (n : ℕ) : List Char :=
  "cat,".toList ++ attributeNameOfExistentialFunctions.toList ++ ',' :: decimal n

theorem getlines_catLine (n : ℕ) : getlines ',' (catLine n) =
    ["cat".toList, attributeNameOfExistentialFunctions.toList, decimal n] := by
  have hline : catLine n =
      "cat".toList ++ ',' :: (attributeNameOfExistentialFunctions.toList ++ ',' :: decimal n) := rfl
  rw [hline, getlines_cons (by decide), getlines_cons (by decide),
    getlines_last ?_ (decimal_ne_nil n)]
  exact fun hmem => ne_of_isDigit (isDigit_of_mem_decimal hmem) rfl rfl

theorem readAttributesLine_catLine {n : ℕ} (hpos : 0 < n) (hbound : n < 2 ^ 32) (lineNr : ℕ) :
    readAttributesLine filename lineNr (⟨[], []⟩, 0) (catLine n) = .ok (⟨[n], []⟩, 0) := by
  unfold readAttributesLine
  simp only [getlines_catLine, List.headD_cons, if_true, List.getD_cons_succ, List.getD_cons_zero,
    readUnsigned_decimal hbound, gt_iff_lt, lt_self_iff_false, if_false, if_neg hpos.ne']
  rfl

/-- The lines of the attributes file. -/
theorem getlines_writeAttributesFile {content : List Char} (h : Scanned functions)
    (hwrite : writeAttributesFile functions = .ok (file, some content)) :
    generateAttributesFile functions = .ok file ∧ 0 < functions.length ∧
      getlines '\n' content = catLine functions.length ::
        (file.metadata.intNames.map intLine ++ [[]]) := by
  obtain ⟨file', hfile, hwrite⟩ := bind_ok.mp hwrite
  obtain ⟨fileContent, hcontent, hret⟩ := bind_ok.mp hwrite
  obtain ⟨rfl, htext⟩ := Prod.mk.inj (Except.ok.inj hret)
  obtain ⟨rfl, -⟩ := appendLines_ok hcontent
  split_ifs at htext with hnil
  have hnames := intNames_ok h hfile
  have hcategories : file'.categories = functions.length := (generateAttributesFile_ok hfile).1
  have hlines : file'.lines = catLine functions.length :: file'.metadata.intNames.map intLine := by
    rw [Attributes.lines, Attributes.metadata, List.map_map, hcategories]
    rfl
  have hnewline : ∀ line ∈ file'.lines, '\n' ∉ line := by
    intro line hline
    rw [hlines] at hline
    rcases List.mem_cons.mp hline with rfl | hline
    · intro hmem
      rcases List.mem_append.mp hmem with hmem | hmem
      · exact absurd hmem (by decide)
      · rcases List.mem_cons.mp hmem with hmem | hmem
        · exact absurd hmem (by decide)
        · exact ne_of_isDigit (isDigit_of_mem_decimal hmem) rfl rfl
    · obtain ⟨name, hname, rfl⟩ := List.mem_map.mp hline
      exact not_mem_intLine (hnames name hname).2
  have hblank : getlines '\n' ['\n'] = [[]] := by decide
  refine ⟨hfile, List.length_pos_iff.mpr hnil, ?_⟩
  rw [← Option.some.inj htext, getlines_flatMap hnewline, hblank, hlines, List.cons_append]

/-- The learner reads the attributes that the teacher has written. -/
theorem readAttributesFile_writeAttributesFile {content : List Char} (h : Scanned functions)
    (hcount : functions.length < 2 ^ 32)
    (hwrite : writeAttributesFile functions = .ok (file, some content)) (filename : String) :
    readAttributesFile filename content = .ok file.metadata := by
  obtain ⟨hfile, hpos, hlines⟩ := getlines_writeAttributesFile h hwrite
  have hskipped : ¬ isSkipped (catLine functions.length) = true := Bool.false_ne_true
  rw [readAttributesFile, hlines, readAttributesLoop, if_neg hskipped,
    readAttributesLine_catLine hpos hcount]
  show readAttributesLoop filename 1 _ (file.metadata.intNames.map intLine ++ [[]]) = _
  rw [readAttributesLoop_intLines (intNames_ok h hfile), Attributes.metadata,
    (generateAttributesFile_ok hfile).1]
  rfl

/-- The learner accepts the four files, and reads the attributes, the data points in the order of
    their indices, the Horn clauses and the intervals. -/
theorem readInputs_handover {attributes intervals : List Char} {s : Sample}
    (hnd : (functions.map Function.name).Nodup) (hnames : Scanned functions)
    (hcount : functions.length < 2 ^ 32)
    (hattributes : writeAttributesFile functions = .ok (file, some attributes))
    (hintervals : writeIntervalsFile functions = .ok intervals) (h : SampleInv functions s)
    (fileStem : String) :
    ∃ data points, s.generateDataFile functions = .ok data ∧
      readInputs fileStem attributes data s.generateHornFile intervals = .ok
        ⟨file.metadata, points, s.hornClauses.map clauseIndexes, learnerIntervals functions 0⟩ ∧
      List.Forall₂ (fun (x : (DataPoint × ℕ) × ℕ) d => Represents functions x.1.1 x.1.2 x.2 d)
        s.c5samplePointToClassAttr.zipIdx points := by
  obtain ⟨hfile, -⟩ := offset_le hattributes
  obtain ⟨data, points, hdata, hpoints, hall⟩ :=
    readDataFile_generateDataFile hnd hcount hfile h (fileStem ++ ".data")
  refine ⟨data, points, hdata, ?_, hall⟩
  simp only [readInputs, readAttributesFile_writeAttributesFile hnames hcount hattributes, hpoints,
    readHornFile_generateHornFile h, readIntervalsFile_writeIntervalsFile hattributes hintervals,
    bind, Except.bind]
  rfl

/-! ## The tree is read back -/

variable {categoricalNames intNames : List String} {t : Tree} {node : TreeNode}

/-- What `json_visitor` writes is the text of the node that it visits. -/
structure Visited (categoricalNames intNames : List String) (t : Tree) (text : List Char)
    (node : TreeNode) : Prop where
  visit : jsonVisitor categoricalNames intNames t = .ok node
  text : text = node.toValue.text
  printable : node.Printable

theorem nameAt_ok {names : List String} {attr : ℕ} {name : String}
    (h : nameAt names attr = .ok name) :
    name ∈ names := by
  unfold nameAt at h
  split at h
  · rename_i heq
    obtain rfl := Except.ok.inj h
    exact List.mem_of_getElem? heq
  · cases h

theorem visited_int (hplain : PlainNames intNames) {attr : ℕ} {threshold : ℤ} {left right : Tree}
    {name : String} {l r : List Char} {nodeLeft nodeRight : TreeNode}
    (hname : nameAt intNames attr = .ok name) (hthreshold : IsInt32 threshold)
    (hl : Visited categoricalNames intNames left l nodeLeft)
    (hr : Visited categoricalNames intNames right r nodeRight) :
    Visited categoricalNames intNames (.int attr threshold left right)
      (nodeHead name threshold ++ l ++ ",".toList ++ r ++ "]\x7d".toList)
      (.inner name threshold true 2 fun i => if i = 0 then nodeLeft else nodeRight) := by
  refine ⟨?_, ?_, hplain _ (nameAt_ok hname), hthreshold, fun i _ => ?_⟩
  · simp only [jsonVisitor, hname, hl.visit, hr.visit, bind, Except.bind]
    rfl
  · rw [hl.text, hr.text, TreeNode.toValue]
    refine Eq.trans ?_ (inner_text name threshold [nodeLeft.toValue, nodeRight.toValue])
    simp only [separated, List.map_cons, List.map_nil, List.flatMap_cons, List.flatMap_nil,
      List.append_nil, List.append_assoc, List.cons_append]
    rfl
  · dsimp only
    split_ifs
    · exact hl.printable
    · exact hr.printable

theorem visited_categorical (hplain : PlainNames categoricalNames) {attr n : ℕ}
    {children : ℕ → Tree}
    {name : String} {texts : List (List Char)} {nodes : ℕ → TreeNode}
    (hname : nameAt categoricalNames attr = .ok name)
    (htexts : List.Forall₂ (fun i text => ((children i).isNull = true ∧ nodes i = .null ∧
        text = "null".toList) ∨ ((children i).isNull = false ∧
          Visited categoricalNames intNames (children i) text (nodes i))) (List.range n) texts) :
    Visited categoricalNames intNames (.categorical attr n children)
      (nodeHead name 0 ++ separated texts ++ "]\x7d".toList)
      (.inner name 0 true n fun i => ((List.range n).map nodes).getD i .null) := by
  have hchild : ∀ i ∈ List.range n, (children i).isNull = true ∧ nodes i = .null ∨
      (children i).isNull = false ∧ ∃ text, Visited categoricalNames intNames (children i) text
      (nodes i) := by
    intro i hi
    obtain ⟨text, -, h⟩ := forall₂_mem_right htexts.flip hi
    exact h.imp (fun h => ⟨h.1, h.2.1⟩) fun h => ⟨h.1, text, h.2⟩
  have hnodes : (List.range n).mapM (fun i => if (children i).isNull then .ok .null
      else jsonVisitor categoricalNames intNames (children i)) =
          .ok ((List.range n).map nodes) := by
    refine mapM_returns_map fun i hi => ?_
    rcases hchild i hi with ⟨hnull, hnode⟩ | ⟨hnull, text, hvisited⟩
    · rw [hnull, hnode]
      rfl
    · rw [hnull]
      exact hvisited.visit
  have heq : texts = (List.range n).map fun i => (nodes i).toValue.text := by
    rw [← List.forall₂_eq_eq_eq, List.forall₂_map_right_iff]
    refine (htexts.imp fun i text h => ?_).flip
    show text = (nodes i).toValue.text
    rcases h with ⟨-, hnode, rfl⟩ | ⟨-, hvisited⟩
    · rw [hnode]
      rfl
    · exact hvisited.text
  have hvalues : (List.range n).map (fun i => (((List.range n).map nodes).getD i .null).toValue) =
      (List.range n).map fun i => (nodes i).toValue := by
    refine List.map_congr_left fun i hi => ?_
    rw [getD_map_range, if_pos (List.mem_range.mp hi)]
  refine ⟨?_, ?_, hplain _ (nameAt_ok hname), ⟨by norm_num, by norm_num⟩, fun i hi => ?_⟩
  · simp only [jsonVisitor, hname, hnodes, bind, Except.bind]
    rfl
  · rw [TreeNode.toValue, hvalues, ← inner_text, List.map_map, heq]
    rfl
  · dsimp only
    rw [getD_map_range, if_pos hi]
    rcases hchild i (List.mem_range.mpr hi) with ⟨-, hnode⟩ | ⟨-, text, hvisited⟩
    · rw [hnode]
      trivial
    · exact hvisited.printable

/-- Every text is that of the visited node. -/
theorem visited_of_jsonText (hcategorical : PlainNames categoricalNames)
    (hint : PlainNames intNames) :
    ∀ {text : List Char}, jsonText categoricalNames intNames t = .ok text →
      (t.Thresholds fun _ threshold => IsInt32 threshold) →
      ∃ node, Visited categoricalNames intNames t text node := by
  induction t with
  | null =>
    intro text htext
    cases htext
  | leaf output =>
    intro text htext _
    obtain rfl := Except.ok.inj htext
    refine ⟨.leaf "" 0 output, rfl, ?_, fun c hc => (by cases hc), by norm_num, by norm_num⟩
    have hhead : "\x7b\"attribute\":\"\",\"cut\":0,\"classification\":".toList =
        "\x7b\"attribute\":\"".toList ++ "".toList ++ "\",\"cut\":".toList ++ decimalInt 0 ++
          ",\"classification\":".toList := by decide
    have htail : ",\"children\":null\x7d".toList =
        ",\"children\":".toList ++ ("null".toList ++ "\x7d".toList) := by simp
    rw [TreeNode.toValue, nodeValue_text, hhead, htail]
    simp only [List.append_assoc]
    rfl
  | int attr threshold left right ihleft ihright =>
    intro text htext hthresholds
    obtain ⟨name, hname, htext⟩ := bind_ok.mp htext
    obtain ⟨l, hl, htext⟩ := bind_ok.mp htext
    obtain ⟨r, hr, htext⟩ := bind_ok.mp htext
    obtain rfl := Except.ok.inj htext
    obtain ⟨nodeLeft, hleft⟩ := ihleft hl hthresholds.2.1
    obtain ⟨nodeRight, hright⟩ := ihright hr hthresholds.2.2
    exact ⟨_, visited_int hint hname hthresholds.1 hleft hright⟩
  | categorical attr n children ih =>
    intro text htext hthresholds
    obtain ⟨name, hname, htext⟩ := bind_ok.mp htext
    obtain ⟨texts, htexts, htext⟩ := bind_ok.mp htext
    obtain rfl := Except.ok.inj htext
    have hnode : ∀ i, ∃ node, ∀ text, (if (children i).isNull then .ok "null".toList
        else jsonText categoricalNames intNames (children i)) = .ok text →
          ((children i).isNull = true ∧ node = .null ∧ text = "null".toList) ∨
            ((children i).isNull = false ∧ Visited categoricalNames intNames (children i) text
            node) := by
      intro i
      cases hnull : (children i).isNull with
      | true => exact ⟨.null, fun text h => .inl ⟨rfl, rfl, (Except.ok.inj h).symm⟩⟩
      | false =>
        cases hchild : jsonText categoricalNames intNames (children i) with
        | error e => exact ⟨.null, fun text h => by cases h⟩
        | ok text =>
          obtain ⟨node, hnode⟩ := ih i hchild (hthresholds i)
          refine ⟨node, fun text' h => .inr ⟨rfl, ?_⟩⟩
          rw [← Except.ok.inj h]
          exact hnode
    choose nodes hnodes using hnode
    exact ⟨_, visited_categorical hcategorical hname
      ((mapM_ok htexts).imp fun i text h => hnodes i text h)⟩

/-- The teacher reads the node that is visited, without what is behind its children. -/
theorem decodeText_jsonText (hcategorical : PlainNames categoricalNames)
    (hint : PlainNames intNames)
    (ht : t.Thresholds fun _ threshold => IsInt32 threshold) {text : List Char}
    (htext : jsonText categoricalNames intNames t = .ok text) :
    ∃ node, jsonVisitor categoricalNames intNames t = .ok node ∧
      decodeText text = some node.trim := by
  obtain ⟨node, hnode⟩ := visited_of_jsonText hcategorical hint htext ht
  refine ⟨node, hnode.visit, ?_⟩
  rw [hnode.text, decodeText, parse_text hnode.printable.simple, Option.bind_eq_bind,
    Option.bind_some, decodeNode_toValue hnode.printable]

end HiceDt.Boogie
