import BlessStar.Gate.Proofs.JsonStrings

/-!
# The agent index of a gate chain

`build_constraint_knowledge` of `agent_indexer.c`, the text of
`constraint_knowledge.json`.  Its `ai_json_escape` makes the escapes of
`json_escape`.  The time stamp is a parameter.
-/

namespace BlessStar.Sdk

open Lib.ByteString Lib.JsonText
open Gate (GateChain GateNode GateScalars body_jsonEscape jsonEscape jsonEscapeByte)

/-- `if (!first) append(",")`. -/
def separator (first : Bool) : Bytes := if first then [] else ascii ","

/-- `auto_json_field` on the flag and the text. -/
def autoJsonField (b : Bool × Bytes) (field : String × Option Bytes) : Bool × Bytes :=
  match field.2 with
  | none => b
  | some val =>
      (false, b.2 ++ separator b.1 ++ ascii "\"" ++ ascii field.1 ++ ascii "\":" ++ jsonEscape val)

def knowledgeFields (s : GateScalars) : List (String × Option Bytes) :=
  [("id", s.id), ("type", s.type), ("field_key", s.fieldKey), ("op", s.op), ("value", s.value)]

mutual

/-- `build_constraint_knowledge_node`; every call finds its flag set. -/
def constraintKnowledgeNode : GateNode → Bytes
  | .mk s children doNodes =>
      let b := (knowledgeFields s).foldl autoJsonField (true, [])
      let b :=
        if children.isEmpty then b
        else
          (false, b.2 ++ separator b.1 ++ ascii "\"children\":[" ++
            constraintKnowledgeNodes true children ++ ascii "]")
      let b :=
        if doNodes.isEmpty then b
        else
          (false, b.2 ++ separator b.1 ++ ascii "\"do\":[" ++
            constraintKnowledgeNodes true doNodes ++ ascii "]")
      ascii "\n    \x7b" ++ b.2 ++ ascii "\x7d"

def constraintKnowledgeNodes : Bool → List GateNode → Bytes
  | _, [] => []
  | first, n :: ns =>
      separator first ++ ascii "\x7b" ++ constraintKnowledgeNode n ++ ascii "\x7d" ++
        constraintKnowledgeNodes false ns

end

/-- `build_constraint_knowledge`. -/
def constraintKnowledge (ts : Bytes) (chain : GateChain) : Bytes :=
  match chain.root with
  | none => ascii "\x7b\"version\":\"1.0\",\"generated_at\":\"\",\"gates\":[]\x7d\n"
  | some root =>
      ascii "\x7b\n\"version\":\"1.0\",\n\"generated_at\":" ++ jsonEscape ts ++
        ascii ",\n\"gates\":[\n" ++ constraintKnowledgeNode root ++ ascii "\n  ]\n\x7d\n"

def presentFields (s : GateScalars) : List (String × Bytes) :=
  (knowledgeFields s).filterMap fun f => f.2.map fun val => (f.1, val)

mutual

def knowledgeTree : GateNode → Tree
  | .mk s children doNodes =>
      .object (Fields.ofList (
        (presentFields s).map (fun f => (ascii f.1, .string f.2)) ++
        (if children.isEmpty then [] else [(ascii "children", .array (knowledgeTrees children))]) ++
        (if doNodes.isEmpty then [] else [(ascii "do", .array (knowledgeTrees doNodes))])))

def knowledgeTrees : List GateNode → Trees
  | [] => .nil
  | n :: ns => .cons (knowledgeTree n) (knowledgeTrees ns)

end

def knowledgeDocument (ts : Bytes) (chain : GateChain) : Tree :=
  .object (Fields.ofList [(ascii "version", .string (ascii "1.0")),
    (ascii "generated_at", .string (if chain.root.isNone then [] else ts)),
    (ascii "gates", .array (knowledgeTrees chain.root.toList))])

def ExportsChain (ts : Bytes) (chain : GateChain) : Prop :=
  Spells (constraintKnowledge ts chain) (knowledgeDocument ts chain)

/-- The member that `auto_json_field` writes. -/
def knowledgeMember (f : String × Bytes) : Bytes × Json :=
  (ascii f.1, .string (f.2.flatMap jsonEscapeByte))

theorem autoJsonField_text (b : Bool × Bytes) (key : String) (val : Bytes) :
    autoJsonField b (key, some val) =
      (false, b.2 ++ separator b.1 ++ compactMember (knowledgeMember (key, val))) := by
  have hquote : ascii "\"" = [Lib.JsonText.ch '"'] := rfl
  have hcolon : ascii "\":" = [Lib.JsonText.ch '"', Lib.JsonText.ch ':'] := rfl
  rw [autoJsonField, hquote, hcolon]
  simp [compactMember, knowledgeMember, Json.text, jsonEscape]

theorem foldl_autoJsonField_next (fs : List (String × Option Bytes)) (text : Bytes) :
    fs.foldl autoJsonField (false, text) =
      (false, text ++ (fs.filterMap fun f => f.2.map fun val => (f.1, val)).flatMap fun f =>
        Lib.JsonText.ch ',' :: compactMember (knowledgeMember f)) := by
  induction fs generalizing text with
  | nil => simp
  | cons f fs ih =>
      obtain ⟨key, val⟩ := f
      cases val with
      | none => exact ih text
      | some val =>
          have hcomma : separator false = [Lib.JsonText.ch ','] := rfl
          rw [List.foldl_cons, autoJsonField_text, ih, hcomma]
          simp

/-- **The fields of a node** are the members of a compact object. -/
theorem foldl_autoJsonField (fs : List (String × Option Bytes)) :
    (fs.foldl autoJsonField (true, [])).2 =
      [Lib.JsonText.ch ','].intercalate
        (((fs.filterMap fun f => f.2.map fun val => (f.1, val)).map knowledgeMember).map
          compactMember) := by
  induction fs with
  | nil => rfl
  | cons f fs ih =>
      obtain ⟨key, val⟩ := f
      cases val with
      | none => exact ih
      | some val =>
          have hopen : separator true = [] := rfl
          rw [List.foldl_cons, autoJsonField_text, foldl_autoJsonField_next, hopen]
          simp [intercalate_cons_flatMap, List.flatMap_map]

theorem constraintKnowledgeNode_leaf (s : GateScalars) :
    constraintKnowledgeNode (.mk s [] []) =
      ascii "\n    " ++ (compactObject ((presentFields s).map knowledgeMember)).text := by
  have hopen : ascii "\n    \x7b" = ascii "\n    " ++ [Lib.JsonText.ch '\x7b'] := rfl
  have hclose : ascii "\x7d" = [Lib.JsonText.ch '\x7d'] := rfl
  rw [constraintKnowledgeNode, text_compactObject, presentFields, ← foldl_autoJsonField, hopen,
    hclose]
  simp

theorem plain_field {s : GateScalars} {f : String × Option Bytes} (hf : f ∈ knowledgeFields s) :
    Lib.JsonText.IsPlain (ascii f.1) := by
  have hname : f.1 ∈ ["id", "type", "field_key", "op", "value"] := List.mem_map_of_mem hf
  have hplain : ∀ name ∈ ["id", "type", "field_key", "op", "value"],
      Lib.JsonText.IsPlain (ascii name) := by
    decide
  exact hplain f.1 hname

theorem knowledgeTree_leaf (s : GateScalars) :
    (compactObject ((presentFields s).map knowledgeMember)).tree = knowledgeTree (.mk s [] []) := by
  have hmember : ∀ f ∈ presentFields s,
      ((fun m : Bytes × Json => (decode m.1, m.2.tree)) ∘ knowledgeMember) f =
        (ascii f.1, Tree.string f.2) := by
    intro f hf
    obtain ⟨g, hg, hfg⟩ := List.mem_filterMap.mp hf
    obtain ⟨val, -, rfl⟩ := Option.map_eq_some_iff.mp hfg
    have hvalue := (body_jsonEscape val).2
    simp only [Function.comp_apply, knowledgeMember, Json.tree, (plain_field hg).decode_eq, hvalue]
  rw [tree_compactObject, knowledgeTree, List.map_map]
  simp only [List.isEmpty_nil, if_true, List.append_nil]
  rw [List.map_congr_left hmember]

theorem valid_knowledgeMembers (s : GateScalars) :
    (compactObject ((presentFields s).map knowledgeMember)).Valid := by
  apply valid_compactObject
  intro m hm
  obtain ⟨f, hf, rfl⟩ := List.mem_map.mp hm
  obtain ⟨g, hg, hfg⟩ := List.mem_filterMap.mp hf
  obtain ⟨val, -, rfl⟩ := Option.map_eq_some_iff.mp hfg
  exact ⟨(plain_field hg).isBody, (body_jsonEscape val).1⟩

def knowledgeJson (ts : Bytes) (node : Json) : Document where
  before := []
  value := .object (
    .more ⟨ascii "\n", ascii "version", [], []⟩ (.string (ascii "1.0")) []
      (.more ⟨ascii "\n", ascii "generated_at", [], []⟩ (.string (ts.flatMap jsonEscapeByte)) []
        (.last ⟨ascii "\n", ascii "gates", [], []⟩
          (.array (.last (ascii "\n\n    ") node (ascii "\n  "))) (ascii "\n"))))
  after := ascii "\n"

theorem plain_member : ∀ name ∈ ["version", "generated_at", "gates", "1.0", ""],
    Lib.JsonText.IsPlain (ascii name) := by
  decide

theorem valid_knowledgeJson (ts : Bytes) {node : Json} (h : node.Valid) :
    (knowledgeJson ts node).Valid := by
  have hkey : ∀ name ∈ ["version", "generated_at", "gates", "1.0"], IsBody (ascii name) :=
    fun name hname => (plain_member name (List.mem_append_left [""] hname)).isBody
  have hline : IsGap (ascii "\n") := by decide
  exact {
    before := .nil
    value := ⟨⟨hline, hkey _ (by decide), .nil, .nil⟩, hkey _ (by decide), .nil,
      ⟨hline, hkey _ (by decide), .nil, .nil⟩, (body_jsonEscape ts).1, .nil,
      ⟨hline, hkey _ (by decide), .nil, .nil⟩, ⟨by decide, h, by decide⟩, hline⟩
    after := hline }

theorem spells_leaf (ts : Bytes) (s : GateScalars) (version : Option Bytes) :
    ExportsChain ts { root := some (.mk s [] []), version := version } := by
  refine ⟨_, valid_knowledgeJson ts (valid_knowledgeMembers s), ?_, ?_⟩
  · dsimp only [constraintKnowledge]
    rw [constraintKnowledgeNode_leaf]
    have hhead : ascii "\x7b\n\"version\":\"1.0\",\n\"generated_at\":" =
        Lib.JsonText.ch '\x7b' :: (MemberKey.text ⟨ascii "\n", ascii "version", [], []⟩ ++
          (Json.text (.string (ascii "1.0")) ++ Lib.JsonText.ch ',' ::
            MemberKey.text ⟨ascii "\n", ascii "generated_at", [], []⟩)) := by
      decide
    have hgates : ascii ",\n\"gates\":[\n" ++ ascii "\n    " =
        Lib.JsonText.ch ',' :: (MemberKey.text ⟨ascii "\n", ascii "gates", [], []⟩ ++
          Lib.JsonText.ch '[' :: ascii "\n\n    ") := by
      decide
    have htail : ascii "\n  ]\n\x7d\n" =
        ascii "\n  " ++ Lib.JsonText.ch ']' :: (ascii "\n" ++ Lib.JsonText.ch '\x7d' ::
          ascii "\n") := by
      decide
    rw [← List.append_assoc, List.append_assoc _ (ascii ",\n\"gates\":[\n"), hgates, hhead, htail]
    simp [knowledgeJson, Document.text, Json.text, Members.text, Items.text, jsonEscape]
  · have hdecode : ∀ name ∈ ["version", "generated_at", "gates", "1.0", ""],
        decode (ascii name) = ascii name :=
      fun name hname => (plain_member name hname).decode_eq
    simp only [List.forall_mem_cons] at hdecode
    simp only [knowledgeJson, Json.tree, Members.fields, Items.trees, knowledgeTree_leaf,
      (body_jsonEscape ts).2, hdecode, knowledgeDocument]
    rfl

def emptyJson : Document where
  before := []
  value := .object (
    .more ⟨[], ascii "version", [], []⟩ (.string (ascii "1.0")) []
      (.more ⟨[], ascii "generated_at", [], []⟩ (.string (ascii "")) []
        (.last ⟨[], ascii "gates", [], []⟩ (.emptyArray []) [])))
  after := ascii "\n"

theorem spells_noRoot (ts : Bytes) (version : Option Bytes) :
    ExportsChain ts { root := none, version := version } := by
  have hbody : ∀ name ∈ ["version", "generated_at", "gates", "1.0", ""], IsBody (ascii name) :=
    fun name hname => (plain_member name hname).isBody
  have hdecode : ∀ name ∈ ["version", "generated_at", "gates", "1.0", ""],
      decode (ascii name) = ascii name :=
    fun name hname => (plain_member name hname).decode_eq
  have htext : emptyJson.text =
      ascii "\x7b\"version\":\"1.0\",\"generated_at\":\"\",\"gates\":[]\x7d\n" := by
    decide
  have hvalid : emptyJson.Valid := {
    before := .nil
    value := ⟨⟨.nil, hbody _ (by decide), .nil, .nil⟩, hbody _ (by decide), .nil,
      ⟨.nil, hbody _ (by decide), .nil, .nil⟩, hbody _ (by decide), .nil,
      ⟨.nil, hbody _ (by decide), .nil, .nil⟩, .nil, .nil⟩
    after := by decide }
  refine ⟨emptyJson, hvalid, htext, ?_⟩
  simp only [List.forall_mem_cons] at hdecode
  simp only [emptyJson, Json.tree, Members.fields, hdecode]
  rfl

theorem run_foldl_autoJsonField (fs : List (String × Option Bytes))
    (hfs : ∀ f ∈ fs, IsBody (ascii f.1)) (b : Bool × Bytes)
    (hb : (BraceScan.outside true).run b.2 = some (.outside b.1)) :
    (BraceScan.outside true).run (fs.foldl autoJsonField b).2 =
      some (.outside (fs.foldl autoJsonField b).1) := by
  induction fs generalizing b with
  | nil => exact hb
  | cons f fs ih =>
      obtain ⟨hname, hrest⟩ := List.forall_mem_cons.mp hfs
      rw [List.foldl_cons]
      apply ih hrest
      obtain ⟨key, val⟩ := f
      cases val with
      | none => exact hb
      | some val =>
          have hkey : MemberKey.Valid ⟨[], ascii key, [], []⟩ := ⟨.nil, hname, .nil, .nil⟩
          have hshape : compactMember (knowledgeMember (key, val)) =
              MemberKey.text ⟨[], ascii key, [], []⟩ ++
                Json.text (.string (val.flatMap jsonEscapeByte)) := by
            simp [compactMember, knowledgeMember, MemberKey.text]
          have hseparator : ∃ o, (BraceScan.outside b.1).run (separator b.1) =
              some (.outside o) := by
            cases b.1 <;> exact ⟨_, rfl⟩
          obtain ⟨o, ho⟩ := hseparator
          rw [autoJsonField_text, BraceScan.run_append, BraceScan.run_append, hb,
            Option.bind_some, ho, Option.bind_some, hshape, BraceScan.run_append,
            MemberKey.run_text hkey, Option.bind_some]
          exact Json.run_text (body_jsonEscape val).1

theorem run_constraintKnowledgeNodes {ns : List GateNode} (hne : ns ≠ []) :
    (BraceScan.outside false).run (constraintKnowledgeNodes true ns) = none := by
  obtain ⟨n, ns, rfl⟩ := List.exists_cons_of_ne_nil hne
  obtain ⟨s, children, doNodes⟩ := n
  have hbraces : (BraceScan.outside false).run
      (separator true ++ ascii "\x7b" ++ ascii "\n    \x7b") = none := by
    decide
  rw [constraintKnowledgeNodes, constraintKnowledgeNode]
  simp only [← List.append_assoc]
  simp only [List.append_assoc (separator true ++ ascii "\x7b" ++ ascii "\n    \x7b"),
    BraceScan.run_append _ (separator true ++ ascii "\x7b" ++ ascii "\n    \x7b"), hbraces,
    Option.bind_none]

theorem run_constraintKnowledgeNode {node : GateNode}
    (h : node.children ≠ [] ∨ node.doNodes ≠ []) :
    (BraceScan.outside false).run (constraintKnowledgeNode node) = none := by
  obtain ⟨s, children, doNodes⟩ := node
  have hfields := run_foldl_autoJsonField (knowledgeFields s)
    (fun f hf => (plain_field hf).isBody) (true, []) rfl
  set b := (knowledgeFields s).foldl autoJsonField (true, []) with hb
  have hopen : (BraceScan.outside false).run (ascii "\n    \x7b") =
      some (BraceScan.outside true) := by
    decide
  have hkey : ∀ key ∈ ["\"children\":[", "\"do\":["], ∀ o,
      (BraceScan.outside o).run (separator o ++ ascii key) = some (BraceScan.outside false) := by
    decide
  simp only [List.forall_mem_cons] at hkey
  rw [constraintKnowledgeNode, ← hb]
  cases children with
  | cons n ns =>
      have hnodes := run_constraintKnowledgeNodes (List.cons_ne_nil n ns)
      have hstop : ∀ rest, (BraceScan.outside false).run (ascii "\n    \x7b" ++ (b.2 ++
          ((separator b.1 ++ ascii "\"children\":[") ++
            (constraintKnowledgeNodes true (n :: ns) ++ rest)))) = none := by
        intro rest
        rw [BraceScan.run_append, hopen, Option.bind_some, BraceScan.run_append, hfields,
          Option.bind_some, BraceScan.run_append, hkey.1, Option.bind_some,
          BraceScan.run_append, hnodes, Option.bind_none]
      simp only [List.append_assoc] at hstop
      simp only [List.isEmpty_cons, Bool.false_eq_true, if_false]
      cases doNodes with
      | nil =>
          simp only [List.isEmpty_nil, if_true, List.append_assoc]
          exact hstop _
      | cons d ds =>
          simp only [List.isEmpty_cons, Bool.false_eq_true, if_false, List.append_assoc]
          exact hstop _
  | nil =>
      have hdo : doNodes ≠ [] := h.resolve_left fun hne => hne rfl
      obtain ⟨n, ns, rfl⟩ := List.exists_cons_of_ne_nil hdo
      have hnodes := run_constraintKnowledgeNodes hdo
      simp only [List.isEmpty_nil, List.isEmpty_cons, Bool.false_eq_true, if_true, if_false,
        List.append_assoc]
      rw [BraceScan.run_append, hopen, Option.bind_some, BraceScan.run_append, hfields,
        Option.bind_some, ← List.append_assoc (separator b.1), BraceScan.run_append, hkey.2.1,
        Option.bind_some, BraceScan.run_append, hnodes, Option.bind_none]

theorem not_exportsChain {ts : Bytes} {chain : GateChain} {node : GateNode}
    (hroot : chain.root = some node) (h : node.children ≠ [] ∨ node.doNodes ≠ []) :
    ¬ExportsChain ts chain := by
  intro hspells
  have hrun := Spells.run_text hspells
  have hhead : (BraceScan.outside false).run
      (ascii "\x7b\n\"version\":\"1.0\",\n\"generated_at\":") =
        some (BraceScan.outside false) := by
    decide
  have hstamp : (BraceScan.outside false).run (jsonEscape ts) = some (BraceScan.outside false) :=
    BraceScan.run_quoted (body_jsonEscape ts).1 false
  have hgates : (BraceScan.outside false).run (ascii ",\n\"gates\":[\n") =
      some (BraceScan.outside false) := by
    decide
  rw [constraintKnowledge, hroot] at hrun
  simp only [List.append_assoc] at hrun
  rw [BraceScan.run_append, hhead, Option.bind_some, BraceScan.run_append, hstamp,
    Option.bind_some, BraceScan.run_append, hgates, Option.bind_some, BraceScan.run_append,
    run_constraintKnowledgeNode h] at hrun
  exact absurd hrun (Option.some_ne_none _).symm

/-- **The agent index of a gate chain** holds the chain just when its root has no nodes below
it: every other node is put between braces twice. -/
theorem exportsChain_iff (ts : Bytes) (chain : GateChain) :
    ExportsChain ts chain ↔
      ∀ node, chain.root = some node → node.children = [] ∧ node.doNodes = [] := by
  constructor
  · intro hspells node hroot
    by_contra hne
    exact not_exportsChain hroot (not_and_or.mp hne) hspells
  · intro h
    obtain ⟨root, version⟩ := chain
    cases root with
    | none => exact spells_noRoot ts version
    | some node =>
        obtain ⟨s, children, doNodes⟩ := node
        obtain ⟨hchildren, hdo⟩ := h _ rfl
        have hleaf : GateNode.mk s children doNodes = .mk s [] [] :=
          congrArg₂ (GateNode.mk s) hchildren hdo
        rw [hleaf]
        exact spells_leaf ts s version

/-- A root with one child. -/
theorem child_not_exported :
    ¬ExportsChain (ascii "2026-01-01T00:00:00Z")
      { root := some (.mk { id := some (ascii "root"), type := some (ascii "ALL") }
          [.mk { id := some (ascii "port"), type := some (ascii "ATOM") } [] []] []) } :=
  not_exportsChain rfl (.inl (List.cons_ne_nil _ _))

end BlessStar.Sdk
