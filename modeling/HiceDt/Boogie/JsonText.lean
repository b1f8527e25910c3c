import HiceDt.Lib.Json
import HiceDt.Boogie.TreeNode

/-!
# The text of a tree

The text that `json_visitor` writes (`hice-dt/src/json_visitor.cpp`, lines 14–66), how it is
decoded into nodes with the fields and defaults of `TreeNode`
(`Boogie/Source/Houdini/HornLearning.cs`, lines 13–45), and how nodes are read as a tree: a
node without children is a leaf, and other nodes are told apart by their attribute.

Results:

* `jsonVisitor_over`: the text is the JSON text of the node of the tree.
* `decodeNode_toValue`: the node is decoded.
* `jsonText_roundTrip`: the tree is read back.
-/

namespace HiceDt.Boogie

open Loop Text Json Machine

/-! ## Writing -/

/-- Texts with a comma before each but the first. -/
def separated : List (List Char) → List Char
  | [] => []
  | item :: items => item ++ items.flatMap (',' :: ·)

/-- What `json_visitor` writes before the children of an inner node. -/
def nodeHead (name : String) (cut : ℤ) : List Char :=
  "\x7b\"attribute\":\"".toList ++ name.toList ++ "\",\"cut\":".toList ++ decimalInt cut ++
    ",\"classification\":true,\"children\":[".toList

/-- `json_visitor::visit`. -/
def jsonText (categoricalNames intNames : List String) : Tree → Except Error (List Char)
  | .null => .error .undefinedBehaviour
  | .leaf output => .ok ("\x7b\"attribute\":\"\",\"cut\":0,\"classification\":".toList ++
      (if output then "true" else "false").toList ++ ",\"children\":null\x7d".toList)
  | .int attr threshold left right => do
    let name ← nameAt intNames attr
    let left ← jsonText categoricalNames intNames left
    let right ← jsonText categoricalNames intNames right
    return nodeHead name threshold ++ left ++ ",".toList ++ right ++ "]\x7d".toList
  | .categorical attr n children => do
    let name ← nameAt categoricalNames attr
    let texts ← (List.range n).mapM fun i =>
      if (children i).isNull then .ok "null".toList
      else jsonText categoricalNames intNames (children i)
    return nodeHead name 0 ++ separated texts ++ "]\x7d".toList

/-! ## Decoding -/

/-- The fields of a `TreeNode` with their defaults. -/
structure NodeFields where
  attr : Option String := none
  cut : ℤ := 0
  classification : Bool := false
  children : Option (List TreeNode) := none

/-- The node with these fields; nodes without an attribute are not represented. -/
def NodeFields.node (r : NodeFields) : Option TreeNode :=
  match r.attr, r.children with
  | none, _ => none
  | some attr, none => some (.leaf attr r.cut r.classification)
  | some attr, some nodes =>
    some (.inner attr r.cut r.classification nodes.length fun i => nodes.getD i .null)

/-- Assign an entry; `nodes` is its value if that is null or an array of nodes. Other entries
    are ignored. -/
def NodeFields.assign (r : NodeFields) (key : List Char) (v : Value)
    (nodes : Option (Option (List TreeNode))) : Option NodeFields :=
  if key = "attribute".toList then
    match v with
    | .string s => some { r with attr := some (String.ofList s) }
    | .null => some { r with attr := none }
    | _ => none
  else if key = "cut".toList then
    match v with
    | .number literal => (readInt 32 literal).map fun n => { r with cut := n }
    | _ => none
  else if key = "classification".toList then
    match v with
    | .bool b => some { r with classification := b }
    | _ => none
  else if key = "children".toList then nodes.map fun nodes => { r with children := nodes }
  else some r

mutual

/-- The node of a JSON value. -/
def decodeNode : Value → Option TreeNode
  | .null => some .null
  | .object fields => do
    let r ← decodeFields fields {}
    r.node
  | _ => none

/-- Null or an array of nodes. -/
def decodeChildren : Value → Option (Option (List TreeNode))
  | .null => some none
  | .array items => (decodeNodes items).map some
  | _ => none

def decodeNodes : List Value → Option (List TreeNode)
  | [] => some []
  | v :: vs => do
    let node ← decodeNode v
    let nodes ← decodeNodes vs
    return node :: nodes

/-- Entries are assigned in the order of the text. -/
def decodeFields : List (List Char × Value) → NodeFields → Option NodeFields
  | [], r => some r
  | (key, v) :: fields, r => do
    let r ← r.assign key v (decodeChildren v)
    decodeFields fields r

end

/-- The node of a text. -/
def decodeText (s : List Char) : Option TreeNode := do
  let v ← parse s
  decodeNode v

/-- The tree of a node. -/
def readTree (categoricalNames intNames : List String) : TreeNode → Option Tree
  | .null => some .null
  | .leaf _ _ classification => some (.leaf classification)
  | .inner attr cut _ length children => do
    let subtrees ← (List.range length).mapM fun i => readTree categoricalNames intNames (children i)
    match categoricalNames.idxOf? attr, intNames.idxOf? attr, subtrees with
    | some a, _, _ => some (.categorical a length fun i => subtrees.getD i .null)
    | none, some a, [left, right] => some (.int a cut left right)
    | _, _, _ => none

/-! ## The value of a node -/

/-- The four entries of a node. -/
def nodeValue (attr : String) (cut : ℤ) (classification : Bool) (children : Value) : Value :=
  .object [("attribute".toList, .string attr.toList), ("cut".toList, .number (decimalInt cut)),
    ("classification".toList, .bool classification), ("children".toList, children)]

/-- The JSON value of a node. -/
def TreeNode.toValue : TreeNode → Value
  | .null => .null
  | .leaf attr cut classification => nodeValue attr cut classification .null
  | .inner attr cut classification length children =>
    nodeValue attr cut classification (.array
      ((List.range length).map fun i => (children i).toValue))

/-- The node without what is behind its children. -/
def TreeNode.trim : TreeNode → TreeNode
  | .null => .null
  | .leaf attr cut classification => .leaf attr cut classification
  | .inner attr cut classification length children =>
    .inner attr cut classification length fun i => if i < length then (children i).trim else .null

/-- Names need no escapes, and cuts are 32-bit numbers. -/
def TreeNode.Printable : TreeNode → Prop
  | .null => True
  | .leaf attr cut _ => (∀ c ∈ attr.toList, IsPlain c) ∧ IsInt32 cut
  | .inner attr cut _ length children => (∀ c ∈ attr.toList, IsPlain c) ∧ IsInt32 cut ∧
    ∀ i < length, (children i).Printable

theorem nodeValue_text (attr : String) (cut : ℤ) (classification : Bool) (children : Value) :
    (nodeValue attr cut classification children).text =
      "\x7b\"attribute\":\"".toList ++ attr.toList ++ "\",\"cut\":".toList ++ decimalInt cut ++
        ",\"classification\":".toList ++ (if classification then "true" else "false").toList ++
        ",\"children\":".toList ++ children.text ++ "\x7d".toList := by
  have h₁ : "\x7b\"attribute\":\"".toList = '\x7b' :: '"' ::
    ("attribute".toList ++ ['"', ':', '"']) := rfl
  have h₂ : "\",\"cut\":".toList = '"' :: ',' :: '"' :: ("cut".toList ++ ['"', ':']) := rfl
  have h₃ : ",\"classification\":".toList = ',' :: '"' :: ("classification".toList ++ ['"', ':']) :=
    rfl
  have h₄ : ",\"children\":".toList = ',' :: '"' :: ("children".toList ++ ['"', ':']) := rfl
  rw [h₁, h₂, h₃, h₄]
  simp only [nodeValue, Value.text, fieldsText, List.cons_append, List.append_assoc,
    List.nil_append]
  rfl

theorem separated_text : ∀ items : List Value, itemsText items = separated (items.map Value.text)
  | [] => rfl
  | [v] => (List.append_nil v.text).symm
  | v :: v' :: items => by
    rw [itemsText_cons, separated_text (v' :: items)]
    rfl

theorem isPlain_literal : ∀ key ∈ ["attribute", "cut", "classification", "children"],
    ∀ c ∈ key.toList, IsPlain c := by
  simp only [IsPlain]
  decide

theorem nodeValue_simple {attr : String} {cut : ℤ} {classification : Bool} {children : Value}
    (hattr : ∀ c ∈ attr.toList, IsPlain c) (hchildren : children.Simple) :
    (nodeValue attr cut classification children).Simple :=
  ⟨isPlain_literal _ (by decide), hattr, isPlain_literal _ (by decide), isNumber_decimalInt cut,
    isPlain_literal _ (by decide), trivial, isPlain_literal _ (by decide), hchildren, trivial⟩

theorem itemsSimple_iff : ∀ {items : List Value}, itemsSimple items ↔ ∀ v ∈ items, v.Simple
  | [] => by simp [itemsSimple]
  | v :: items => by rw [itemsSimple, itemsSimple_iff, List.forall_mem_cons]

variable {node : TreeNode}

theorem TreeNode.Printable.simple (h : node.Printable) : node.toValue.Simple := by
  induction node with
  | null => trivial
  | leaf attr cut classification => exact nodeValue_simple h.1 trivial
  | inner attr cut classification length children ih =>
    refine nodeValue_simple h.1 ?_
    rw [Value.Simple, itemsSimple_iff, List.forall_mem_map]
    exact fun i hi => ih i (h.2.2 i (List.mem_range.mp hi))

/-! ## The node is decoded -/

theorem decodeNodes_map {f : ℕ → Value} {g : ℕ → TreeNode} : ∀ {l : List ℕ},
    (∀ i ∈ l, decodeNode (f i) = some (g i)) → decodeNodes (l.map f) = some (l.map g)
  | [], _ => rfl
  | i :: l, h => by
    rw [List.map_cons, decodeNodes, h i List.mem_cons_self,
      decodeNodes_map fun j hj => h j (List.mem_cons_of_mem _ hj)]
    rfl

/-- The entries of a node are its fields. -/
theorem decodeNode_nodeValue {attr : String} {cut : ℤ} {classification : Bool} {children : Value}
    (hcut : IsInt32 cut) : decodeNode (nodeValue attr cut classification children) =
      (decodeChildren children).bind fun nodes =>
        NodeFields.node ⟨some attr, cut, classification, nodes⟩ := by
  have hread : readInt 32 (decimalInt cut) = some cut := readInt_decimalInt hcut.1 hcut.2
  have h₁ : ¬ "cut".toList = "attribute".toList := by decide
  have h₂ : ¬ "classification".toList = "attribute".toList := by decide
  have h₃ : ¬ "classification".toList = "cut".toList := by decide
  have h₄ : ¬ "children".toList = "attribute".toList := by decide
  have h₅ : ¬ "children".toList = "cut".toList := by decide
  have h₆ : ¬ "children".toList = "classification".toList := by decide
  simp only [nodeValue, decodeNode, decodeFields, NodeFields.assign, if_true, if_neg h₁, if_neg h₂,
    if_neg h₃, if_neg h₄, if_neg h₅, if_neg h₆, hread, Option.map_some, Option.bind_eq_bind,
    Option.bind_some, String.ofList_toList]
  cases decodeChildren children with
  | none => rfl
  | some nodes => rfl

theorem getD_map_range {α : Type*} (f : ℕ → α) (n i : ℕ) (d : α) :
    ((List.range n).map f).getD i d = if i < n then f i else d := by
  rw [List.getD_eq_getElem?_getD, List.getElem?_map]
  split_ifs with hi
  · rw [List.getElem?_range hi]
    rfl
  · rw [List.getElem?_eq_none (by rw [List.length_range]; omega)]
    rfl

/-- The decoded node has the same fields and children. -/
theorem decodeNode_toValue (h : node.Printable) : decodeNode node.toValue = some node.trim := by
  induction node with
  | null => rfl
  | leaf attr cut classification => exact decodeNode_nodeValue h.2
  | inner attr cut classification length children ih =>
    have hchildren : decodeNodes ((List.range length).map fun i => (children i).toValue) =
        some ((List.range length).map fun i => (children i).trim) :=
      decodeNodes_map fun i hi => ih i (h.2.2 i (List.mem_range.mp hi))
    rw [TreeNode.toValue, decodeNode_nodeValue h.2.1, decodeChildren, hchildren, Option.map_some,
      Option.bind_some, NodeFields.node]
    dsimp only
    rw [List.length_map, List.length_range, TreeNode.trim]
    refine congrArg some (congrArg _ (funext fun i => ?_))
    exact getD_map_range _ _ _ _

/-! ## The tree is read back -/

/-- A tree over the attributes: an integer node has two children that are not null and a 32-bit
    threshold, a categorical node may have null children. -/
def OverAttributes (categoricalNames intNames : List String) : Tree → Prop
  | .null => False
  | .leaf _ => True
  | .int attr threshold left right => attr < intNames.length ∧ IsInt32 threshold ∧
    OverAttributes categoricalNames intNames left ∧ OverAttributes categoricalNames intNames right
  | .categorical attr n children => attr < categoricalNames.length ∧
    (∀ i < n, children i = .null ∨ OverAttributes categoricalNames intNames (children i)) ∧
    ∀ i, n ≤ i → children i = .null

variable {categoricalNames intNames : List String}

theorem nameAt_getElem {names : List String} {attr : ℕ} (h : attr < names.length) :
    nameAt names attr = .ok names[attr] := by
  rw [nameAt, List.getElem?_eq_getElem h]

theorem idxOf?_getElem {names : List String} (hnd : names.Nodup) {attr : ℕ}
    (h : attr < names.length) :
    names.idxOf? names[attr] = some attr := by
  rw [List.idxOf?_eq_some_iff]
  refine ⟨h, rfl, fun j hj heq => ?_⟩
  have hindex := (List.Nodup.getElem_inj_iff hnd).mp heq
  omega

theorem mapM_some {α β : Type} {f : α → Option β} {g : α → β} : ∀ {l : List α},
    (∀ a ∈ l, f a = some (g a)) → l.mapM f = some (l.map g)
  | [], _ => rfl
  | a :: l, h => by
    rw [List.mapM_cons, h a List.mem_cons_self, mapM_some fun b hb =>
      h b (List.mem_cons_of_mem _ hb)]
    rfl

theorem mapM_returns_map {α β : Type} {f : α → Except Error β} {g : α → β} {l : List α}
    (h : ∀ a ∈ l, f a = .ok (g a)) : l.mapM f = .ok (l.map g) := by
  refine mapM_returns ?_
  rw [List.forall₂_map_right_iff, List.forall₂_same]
  exact h

/-- The names do not have to be escaped. -/
def PlainNames (names : List String) : Prop := ∀ name ∈ names, ∀ c ∈ name.toList, IsPlain c

theorem nodeHead_eq (name : String) (cut : ℤ) : nodeHead name cut =
    "\x7b\"attribute\":\"".toList ++ name.toList ++ "\",\"cut\":".toList ++ decimalInt cut ++
      (",\"classification\":".toList ++ ("true".toList ++ (",\"children\":".toList ++ ['[']))) := by
  have hliteral : ",\"classification\":true,\"children\":[".toList =
      ",\"classification\":".toList ++ ("true".toList ++
      (",\"children\":".toList ++ ['['])) := by simp
  exact congrArg (_ ++ ·) hliteral

/-- The text of an inner node with the given children. -/
theorem inner_text (name : String) (cut : ℤ) (items : List Value) :
    nodeHead name cut ++ separated (items.map Value.text) ++ "]\x7d".toList =
      (nodeValue name cut true (.array items)).text := by
  have hregroup : ∀ a b c d e f g l z : List Char,
      a ++ b ++ c ++ d ++ (e ++ (f ++ (g ++ ['[']))) ++ l ++ ([']'] ++ z) =
        a ++ b ++ c ++ d ++ e ++ f ++ g ++ '[' :: (l ++ [']']) ++ z := by
    intro a b c d e f g l z
    simp only [List.append_assoc, List.cons_append, List.nil_append]
  have hend : "]\x7d".toList = [']'] ++ "\x7d".toList := rfl
  rw [nodeHead_eq, nodeValue_text, if_pos rfl, Value.text, separated_text]
  exact (congrArg (_ ++ ·) hend).trans (hregroup _ _ _ _ _ _ _ _ _)

/-- What `json_visitor` makes of a tree: its node, the text of the node, and the tree that is
    read from it. -/
structure Written (categoricalNames intNames : List String) (t : Tree) (node : TreeNode) :
    Prop where
  visited : jsonVisitor categoricalNames intNames t = .ok node
  text : jsonText categoricalNames intNames t = .ok node.toValue.text
  printable : node.Printable
  tree : readTree categoricalNames intNames node.trim = some t

theorem written_int (hplain : PlainNames intNames) (hnd : intNames.Nodup) {attr : ℕ} {threshold : ℤ}
    {left right : Tree} {l r : TreeNode} (hattr : attr < intNames.length)
    (hname : intNames[attr] ∉ categoricalNames) (hthreshold : IsInt32 threshold)
    (hleft : Written categoricalNames intNames left l)
    (hright : Written categoricalNames intNames right r) :
    Written categoricalNames intNames (.int attr threshold left right)
      (.inner intNames[attr] threshold true 2 fun i => if i = 0 then l else r) := by
  have hget := nameAt_getElem hattr
  refine ⟨?_, ?_, ⟨hplain _ (List.getElem_mem hattr), hthreshold, fun i _ => ?_⟩, ?_⟩
  · simp only [jsonVisitor, hget, hleft.visited, hright.visited, bind, Except.bind]
    rfl
  · have htext := inner_text intNames[attr] threshold [l.toValue, r.toValue]
    simp only [jsonText, hget, hleft.text, hright.text, bind, Except.bind]
    rw [TreeNode.toValue]
    refine congrArg Except.ok (Eq.trans ?_ htext)
    simp only [separated, List.map_cons, List.map_nil, List.flatMap_cons, List.flatMap_nil,
      List.append_nil, List.append_assoc, List.cons_append]
    rfl
  · dsimp only
    split_ifs
    · exact hleft.printable
    · exact hright.printable
  · have hsubtrees : (List.range 2).mapM (fun i => readTree categoricalNames intNames
        (if i < 2 then (if i = 0 then l else r).trim else .null)) =
        some ((List.range 2).map fun i => if i = 0 then left else right) := by
      refine mapM_some fun i hi => ?_
      rw [if_pos (List.mem_range.mp hi)]
      split_ifs
      · exact hleft.tree
      · exact hright.tree
    have hidx : categoricalNames.idxOf? intNames[attr] = none := List.idxOf?_eq_none_iff.mpr hname
    rw [TreeNode.trim, readTree, hsubtrees, hidx, idxOf?_getElem hnd hattr]
    rfl

theorem written_categorical (hplain : PlainNames categoricalNames) (hnd : categoricalNames.Nodup)
    {attr n : ℕ} {children : ℕ → Tree} {node : ℕ → TreeNode}
    (hattr : attr < categoricalNames.length)
    (hchildren : ∀ i < n, (children i = .null ∧ node i = .null) ∨
      ((children i).isNull = false ∧ Written categoricalNames intNames (children i) (node i)))
    (hbeyond : ∀ i, n ≤ i → children i = .null) :
    Written categoricalNames intNames (.categorical attr n children)
      (.inner categoricalNames[attr] 0 true n fun i => ((List.range n).map node).getD i .null) := by
  have hget := nameAt_getElem hattr
  refine ⟨?_, ?_, ⟨hplain _ (List.getElem_mem hattr), by decide, fun i hi => ?_⟩, ?_⟩
  · have hnodes : (List.range n).mapM (fun i => if (children i).isNull then .ok .null
        else jsonVisitor categoricalNames intNames (children i)) =
            .ok ((List.range n).map node) := by
      refine mapM_returns_map fun i hi => ?_
      rcases hchildren i (List.mem_range.mp hi) with ⟨hnull, hnode⟩ | ⟨hnull, hwritten⟩
      · rw [hnull, hnode]
        rfl
      · rw [hnull]
        exact hwritten.visited
    simp only [jsonVisitor, hget, hnodes, bind, Except.bind]
    rfl
  · have htexts : (List.range n).mapM (fun i => if (children i).isNull then .ok "null".toList
        else jsonText categoricalNames intNames (children i)) =
        .ok ((List.range n).map fun i => (node i).toValue.text) := by
      refine mapM_returns_map fun i hi => ?_
      rcases hchildren i (List.mem_range.mp hi) with ⟨hnull, hnode⟩ | ⟨hnull, hwritten⟩
      · rw [hnull, hnode]
        rfl
      · rw [hnull]
        exact hwritten.text
    have hvalues : (List.range n).map (fun i => (((List.range n).map node).getD i .null).toValue) =
        (List.range n).map fun i => (node i).toValue := by
      refine List.map_congr_left fun i hi => ?_
      rw [getD_map_range, if_pos (List.mem_range.mp hi)]
    simp only [jsonText, hget, htexts, bind, Except.bind]
    rw [TreeNode.toValue, hvalues, ← inner_text, List.map_map]
    rfl
  · dsimp only
    rw [getD_map_range, if_pos hi]
    rcases hchildren i hi with ⟨-, hnode⟩ | ⟨-, hwritten⟩
    · rw [hnode]
      trivial
    · exact hwritten.printable
  · have hsubtrees : (List.range n).mapM (fun i => readTree categoricalNames intNames
        (if i < n then (((List.range n).map node).getD i .null).trim else .null)) =
        some ((List.range n).map children) := by
      refine mapM_some fun i hi => ?_
      rw [if_pos (List.mem_range.mp hi), getD_map_range, if_pos (List.mem_range.mp hi)]
      rcases hchildren i (List.mem_range.mp hi) with ⟨hnull, hnode⟩ | ⟨-, hwritten⟩
      · rw [hnull, hnode]
        rfl
      · exact hwritten.tree
    rw [TreeNode.trim, readTree, hsubtrees, idxOf?_getElem hnd hattr]
    refine congrArg some (congrArg _ (funext fun i => ?_))
    rw [getD_map_range]
    split_ifs with hi
    · rfl
    · exact (hbeyond i (by omega)).symm

/-- Every tree over the attributes is written as the text of a node from which it is read. -/
theorem jsonVisitor_over (hplain : PlainNames (categoricalNames ++ intNames))
    (hnd : (categoricalNames ++ intNames).Nodup) {t : Tree}
    (h : OverAttributes categoricalNames intNames t) :
    ∃ node, Written categoricalNames intNames t node := by
  obtain ⟨hcategorical, hint, hdisjoint⟩ := List.nodup_append.mp hnd
  induction t with
  | null => exact absurd h id
  | leaf output =>
    refine ⟨.leaf "" 0 output, rfl, ?_, ⟨fun c hc => (by cases hc), by decide⟩, rfl⟩
    have hhead : "\x7b\"attribute\":\"\",\"cut\":0,\"classification\":".toList =
        "\x7b\"attribute\":\"".toList ++ "".toList ++ "\",\"cut\":".toList ++ decimalInt 0 ++
          ",\"classification\":".toList := by decide
    have htail : ",\"children\":null\x7d".toList = ",\"children\":".toList ++
        ("null".toList ++ "\x7d".toList) := by
      simp
    rw [TreeNode.toValue, nodeValue_text, jsonText, hhead, htail]
    simp only [List.append_assoc]
    rfl
  | int attr threshold left right ihleft ihright =>
    obtain ⟨hattr, hthreshold, hleft, hright⟩ := h
    obtain ⟨l, hl⟩ := ihleft hleft
    obtain ⟨r, hr⟩ := ihright hright
    exact ⟨_, written_int (fun name hname => hplain name (List.mem_append_right _ hname)) hint hattr
      (fun hmem => hdisjoint _ hmem _ (List.getElem_mem hattr) rfl) hthreshold hl hr⟩
  | categorical attr n children ih =>
    obtain ⟨hattr, hchildren, hbeyond⟩ := h
    have hnode : ∀ i, ∃ node, i < n → (children i = .null ∧ node = .null) ∨
        ((children i).isNull = false ∧ Written categoricalNames intNames (children i) node) := by
      intro i
      by_cases hi : i < n
      · rcases hchildren i hi with hnull | hover
        · exact ⟨.null, fun _ => .inl ⟨hnull, rfl⟩⟩
        · obtain ⟨node, hwritten⟩ := ih i hover
          refine ⟨node, fun _ => .inr ⟨?_, hwritten⟩⟩
          cases hchild : children i with
          | null =>
            rw [hchild] at hover
            exact absurd hover id
          | leaf => rfl
          | int => rfl
          | categorical => rfl
      · exact ⟨.null, fun h => absurd h hi⟩
    choose node hnode using hnode
    exact ⟨_, written_categorical (fun name hname => hplain name (List.mem_append_left _ hname))
      hcategorical hattr hnode hbeyond⟩

/-- The text of a tree is well-formed JSON, and the tree is read back from it; so another tree
    has another text. -/
theorem jsonText_roundTrip (hplain : PlainNames (categoricalNames ++ intNames))
    (hnd : (categoricalNames ++ intNames).Nodup) {t : Tree}
    (h : OverAttributes categoricalNames intNames t) :
    ∃ text, jsonText categoricalNames intNames t = .ok text ∧ IsText text ∧
      (decodeText text).bind (readTree categoricalNames intNames) = some t ∧
      ∀ t', OverAttributes categoricalNames intNames t' →
        jsonText categoricalNames intNames t' = .ok text → t' = t := by
  have hread : ∀ {t node}, Written categoricalNames intNames t node →
      (decodeText node.toValue.text).bind (readTree categoricalNames intNames) = some t := by
    intro t node hwritten
    rw [decodeText, parse_text hwritten.printable.simple, Option.bind_eq_bind, Option.bind_some,
      decodeNode_toValue hwritten.printable, Option.bind_some, hwritten.tree]
  obtain ⟨node, hwritten⟩ := jsonVisitor_over hplain hnd h
  refine ⟨node.toValue.text, hwritten.text, isText_text hwritten.printable.simple, hread hwritten,
    ?_⟩
  intro t' h' htext
  obtain ⟨node', hwritten'⟩ := jsonVisitor_over hplain hnd h'
  have heq := Except.ok.inj (htext.symm.trans hwritten'.text)
  have hread' := hread hwritten
  rw [heq, hread hwritten'] at hread'
  exact Option.some.inj hread'

/-- A split on the category, whose second child is null. -/
def functionTree : Tree :=
  .categorical 0 2 fun i => if i = 0 then .int 0 (-3) (.leaf true) (.leaf false) else .null

theorem jsonText_roundTrip_function :
    ∃ text, jsonText ["$func"] ["x", "x+y"] functionTree = .ok text ∧ IsText text ∧
      (decodeText text).bind (readTree ["$func"] ["x", "x+y"]) = some functionTree := by
  have hplain : PlainNames (["$func"] ++ ["x", "x+y"]) := by
    simp only [PlainNames, IsPlain]
    decide
  have hover : OverAttributes ["$func"] ["x", "x+y"] functionTree := by
    refine ⟨by decide, fun i hi => ?_, fun i hi => if_neg (by omega)⟩
    dsimp only
    split_ifs
    · exact .inr ⟨by decide, by decide, trivial, trivial⟩
    · exact .inl rfl
  obtain ⟨text, htext, hjson, hread, -⟩ := jsonText_roundTrip hplain (by decide) hover
  exact ⟨text, htext, hjson, hread⟩

end HiceDt.Boogie
