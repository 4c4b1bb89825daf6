import BlessStar.Gate.Proofs.TokenReading
import Mathlib.Data.List.Perm.Basic

/-!
# Compiling a spelled AST

The parser, standing at the tokens of an AST, returns the node of that AST and
stands behind them.  An object is read member by member; what a member does to
the fields does not depend on where it stands.
-/

namespace BlessStar.Gate

open Lib.ByteString

def GateAst.node : GateAst → GateNode
  | .condition f op v =>
      GateNode.register (.mk { type := some (ascii "bs_condition"), fieldKey := some f,
                               op := some op, value := some v } [] [])
  | .and left right =>
      GateNode.register (((GateNode.create (ascii "bs_logic_and") none).linkChild
        (some left.node)).linkChild (some right.node))
  | .or left right =>
      GateNode.register (((GateNode.create (ascii "bs_logic_or") none).linkChild
        (some left.node)).linkChild (some right.node))
  | .not node => node.node.register
  | .thenDo when doPart => (thenNode (some when.node) (some doPart.node)).register
  | .action name v =>
      GateNode.register (.mk { type := some (ascii "bs_meta_rule"), fieldKey := some name,
                               op := some (ascii "action"), value := some v } [] [])

namespace Proofs.Compilation

open TokenReading GateAst

variable {ν : Type} {D : CDouble ν}

/-- Reading these tokens in an object changes the fields by `u`. -/
def Sets (D : CDouble ν) (m : List (Astok ν)) (u : AstFields → AstFields) : Prop :=
  0 < m.length ∧ ∀ n p f ts, m.length ≤ n → Reads D p (m ++ ts) →
    ∃ p', Reads D p' ts ∧
      astParseFields D (n + 1) (skipComma D p) f = astParseFields D n (skipComma D p') (u f)

theorem skipComma_of_comma {p : Asparse ν} (h : p.tok = .comma) :
    skipComma D p = asparseAdvance D p := by
  rw [skipComma, h]
  rfl

theorem skipComma_of_rbrace {p : Asparse ν} (h : p.tok = .rbrace) : skipComma D p = p := by
  rw [skipComma, h]
  rfl

theorem astParseFields_scalar {n : Nat} {p p' : Asparse ν} {f f' : AstFields} {key : Bytes}
    (hkey : p.tok = .string key) (hcolon : (asparseAdvance D p).tok = .colon)
    (hscalar : parseScalar D key (asparseAdvance D (asparseAdvance D p)) f = some (f', p')) :
    astParseFields D (n + 1) p f = astParseFields D n (skipComma D p') f' := by
  simp [astParseFields, hkey, hcolon, hscalar, Astok.isColon]

theorem astParseFields_node {n : Nat} {p p' : Asparse ν} {f : AstFields} {key : Bytes}
    {slot : AstSlot} {node : Option GateNode}
    (hkey : p.tok = .string key) (hcolon : (asparseAdvance D p).tok = .colon)
    (hscalar : parseScalar D key (asparseAdvance D (asparseAdvance D p)) f = none)
    (hslot : AstSlot.ofKey key = some slot)
    (hbrace : (asparseAdvance D (asparseAdvance D p)).tok = .lbrace)
    (hnode : compileAstNode D n (asparseAdvance D (asparseAdvance D p)) = some (node, p')) :
    astParseFields D (n + 1) p f = astParseFields D n (skipComma D p') (f.setNode node slot) := by
  simp [astParseFields, hkey, hcolon, hscalar, hslot, hbrace, hnode, Astok.isColon, Astok.isLbrace]

theorem parseScalar_nodeKey {key : Bytes} {slot : AstSlot} (h : AstSlot.ofKey key = some slot)
    (p : Asparse ν) (f : AstFields) : parseScalar D key p f = none := by
  have hkeys : key ∈ [ascii "left", ascii "right", ascii "when", ascii "do", ascii "node"] := by
    unfold AstSlot.ofKey at h
    split_ifs at h <;> simp_all
  have hne : ∀ k ∈ [ascii "left", ascii "right", ascii "when", ascii "do", ascii "node"],
      k ≠ ascii "type" ∧ k ≠ ascii "field" ∧ k ≠ ascii "op" ∧ k ≠ ascii "value" ∧
        k ≠ ascii "name" := by decide
  obtain ⟨h1, h2, h3, h4, h5⟩ := hne key hkeys
  simp [parseScalar, h1, h2, h3, h4, h5]

theorem sets_scalar (key : String) (v : Bytes) {u : AstFields → AstFields}
    (h : ∀ p f, p.tok = .string v → parseScalar D (ascii key) p f = some (u f, asparseAdvance D p)) :
    Sets D (member key [.string v]) u := by
  refine ⟨Nat.succ_pos _, ?_⟩
  intro n p f ts _ hreads
  obtain ⟨hcomma, hkey, hcolon, hval, hrest⟩ := hreads
  refine ⟨_, hrest, ?_⟩
  rw [skipComma_of_comma hcomma, astParseFields_scalar hkey hcolon (h _ _ hval)]

/-- The parser compiles these tokens to `node`. -/
def Compiles (D : CDouble ν) (t : List (Astok ν)) (node : Option GateNode) : Prop :=
  ∀ n p ts, t.length ≤ n → Reads D p (t ++ ts) →
    p.tok = .lbrace ∧ ∃ p', Reads D p' ts ∧ compileAstNode D n p = some (node, p')

theorem sets_node (key : String) {slot : AstSlot} {t : List (Astok ν)} {node : Option GateNode}
    (hslot : AstSlot.ofKey (ascii key) = some slot) (ht : Compiles D t node) :
    Sets D (member key t) fun f => f.setNode node slot := by
  refine ⟨Nat.succ_pos _, ?_⟩
  intro n p f ts hn hreads
  have hlen : t.length ≤ n := by
    simp only [member, List.length_cons] at hn
    omega
  obtain ⟨hcomma, hkey, hcolon, hval⟩ := hreads
  obtain ⟨hbrace, p', hrest, hnode⟩ := ht n _ ts hlen hval
  refine ⟨p', hrest, ?_⟩
  rw [skipComma_of_comma hcomma,
    astParseFields_node hkey hcolon (parseScalar_nodeKey hslot _ _) hslot hbrace hnode]

theorem parse_members {ms : List (List (Astok ν))} {us : List (AstFields → AstFields)}
    (h : List.Forall₂ (Sets D) ms us) {n : Nat} {p : Asparse ν} (f : AstFields)
    {ts : List (Astok ν)} (hn : ms.flatten.length < n)
    (hreads : Reads D p (ms.flatten ++ .rbrace :: ts)) :
    ∃ p', Reads D p' ts ∧
      astParseFields D n (skipComma D p) f = some (us.foldl (fun f u => u f) f, p') := by
  induction h generalizing n p f with
  | nil =>
      obtain ⟨hbrace, hrest⟩ := hreads
      obtain ⟨k, rfl⟩ := Nat.exists_eq_add_of_lt hn
      refine ⟨_, hrest, ?_⟩
      rw [skipComma_of_rbrace hbrace]
      simp [astParseFields, hbrace, closeObject, Astok.isRbrace]
  | @cons m u ms us hm _ ih =>
      obtain ⟨hpos, hm⟩ := hm
      rw [List.flatten_cons, List.length_append] at hn
      rw [List.flatten_cons, List.append_assoc] at hreads
      obtain ⟨k, rfl⟩ : ∃ k, n = k + 1 := ⟨n - 1, by omega⟩
      obtain ⟨p1, hreads1, hstep⟩ := hm k p f _ (by omega) hreads
      rw [hstep]
      exact ih (u f) (by omega) hreads1

theorem peekType_object {p : Asparse ν} {type : Bytes} {ts : List (Astok ν)}
    (h : Reads D p (.lbrace :: .string (ascii "type") :: .colon :: .string type :: ts)) :
    peekType D p = some type := by
  obtain ⟨hbrace, hkey, hcolon, htype, _⟩ := h
  simp [peekType, hbrace, hkey, hcolon, htype, Astok.isColon]

theorem parseScalar_type {p : Asparse ν} (f : AstFields) {type : Bytes}
    (h : p.tok = .string type) :
    parseScalar D (ascii "type") p f = some ({ f with type := some type }, asparseAdvance D p) := by
  simp [parseScalar, parseStringField, h]

/-- **An object compiles to the node of its type**, whatever the order of its
members, when no two of them set the same field. -/
theorem compiles_object (type : String) {ms ms0 : List (List (Astok ν))}
    {us : List (AstFields → AstFields)} {node : Option GateNode} (hperm : ms.Perm ms0)
    (hsets : List.Forall₂ (Sets D) ms0 us)
    (hcomm : ∀ u ∈ us, ∀ v ∈ us, ∀ f, v (u f) = u (v f))
    (hnode : (buildNode (ascii type)
      (us.foldl (fun f u => u f) { type := some (ascii type) })).map GateNode.register = node) :
    Compiles D (object type ms) node := by
  intro n p ts hn hreads
  obtain ⟨us', hsets', hperm'⟩ := List.perm_comp_forall₂ hperm hsets
  have hfold : us'.foldl (fun f u => u f) { type := some (ascii type) } =
      us.foldl (fun f u => u f) { type := some (ascii type) } :=
    hperm'.foldl_eq' (fun u hu v hv f => hcomm u (hperm'.mem_iff.mp hu) v (hperm'.mem_iff.mp hv) f) _
  simp only [object, List.length_cons, List.length_append, List.length_nil] at hn
  obtain ⟨k, rfl⟩ : ∃ k, n = k + 2 := ⟨n - 2, by omega⟩
  simp only [object, List.cons_append, List.append_assoc, List.nil_append] at hreads
  have hpeek := peekType_object hreads
  obtain ⟨hbrace, hkey, hcolon, htype, hrest⟩ := hreads
  obtain ⟨p', hrest', hmembers⟩ := parse_members hsets' { type := some (ascii type) }
    (n := k) (by omega) hrest
  refine ⟨hbrace, p', hrest', ?_⟩
  have hfields : astParseFields D (k + 1) (asparseAdvance D p) {} =
      some (us.foldl (fun f u => u f) { type := some (ascii type) }, p') := by
    rw [astParseFields_scalar hkey hcolon (parseScalar_type {} htype), hmembers, hfold]
  simp [compileAstNode, hbrace, hpeek, hfields, hnode, Astok.isLbrace]

theorem sets_field (v : Bytes) :
    Sets D (member "field" [.string v]) fun f => { f with field := some v } := by
  refine sets_scalar "field" v fun p f h => ?_
  have h1 : ascii "field" ≠ ascii "type" := by decide
  simp [parseScalar, parseStringField, h, h1]

theorem sets_op (v : Bytes) :
    Sets D (member "op" [.string v]) fun f => { f with op := some v } := by
  refine sets_scalar "op" v fun p f h => ?_
  have h1 : ascii "op" ≠ ascii "type" ∧ ascii "op" ≠ ascii "field" := by decide
  simp [parseScalar, parseStringField, h, h1]

theorem sets_value (v : Bytes) :
    Sets D (member "value" [.string v]) fun f => { f with value := some v } := by
  refine sets_scalar "value" v fun p f h => ?_
  have h1 : ascii "value" ≠ ascii "type" ∧ ascii "value" ≠ ascii "field" ∧
      ascii "value" ≠ ascii "op" := by decide
  simp [parseScalar, parseValueAsString, h, h1]

theorem sets_name (v : Bytes) :
    Sets D (member "name" [.string v]) fun f => { f with name := some v } := by
  refine sets_scalar "name" v fun p f h => ?_
  have h1 : ascii "name" ≠ ascii "type" ∧ ascii "name" ≠ ascii "field" ∧
      ascii "name" ≠ ascii "op" ∧ ascii "name" ≠ ascii "value" := by decide
  simp [parseScalar, parseStringField, h, h1]

/-- **The parser compiles an AST to its node.** -/
theorem compiles_tokens {a : GateAst} {ts : List (Astok ν)} (h : a.Tokens ts) :
    Compiles D ts (some a.node) := by
  induction h with
  | condition hperm =>
      exact compiles_object "condition" hperm
        (.cons (sets_field _) (.cons (sets_op _) (.cons (sets_value _) .nil))) (by simp) rfl
  | and _ _ hperm ihl ihr =>
      exact compiles_object "and" hperm
        (.cons (sets_node "left" rfl ihl) (.cons (sets_node "right" rfl ihr) .nil))
        (by simp [AstFields.setNode]) rfl
  | or _ _ hperm ihl ihr =>
      exact compiles_object "or" hperm
        (.cons (sets_node "left" rfl ihl) (.cons (sets_node "right" rfl ihr) .nil))
        (by simp [AstFields.setNode]) rfl
  | not _ ih =>
      exact compiles_object "not" (.refl _) (.cons (sets_node "node" rfl ih) .nil) (by simp) rfl
  | thenDo _ _ hperm ihw ihd =>
      exact compiles_object "then" hperm
        (.cons (sets_node "when" rfl ihw) (.cons (sets_node "do" rfl ihd) .nil))
        (by simp [AstFields.setNode]) rfl
  | action hperm =>
      exact compiles_object "action" hperm
        (.cons (sets_name _) (.cons (sets_value _) .nil)) (by simp) rfl

theorem gateAstCompile_text {a : GateAst} {ts : List (Astok ν)} {json : Bytes}
    (htokens : a.Tokens ts) (hspell : Spells ts json) :
    gateAstCompile D json = some { root := some a.node } := by
  have htext : cstr json = json := cstr_eq_self (TokenReading.not_zero_mem_text hspell)
  have hlen := length_le_of_spells hspell
  have hreads : Reads D (lex D json) (ts ++ []) := by
    rw [List.append_nil]
    exact reads_lex D hspell
  obtain ⟨hbrace, p', _, hnode⟩ :=
    compiles_tokens htokens (json.length + 2) (lex D json) [] (by omega) hreads
  simp [gateAstCompile, htext, hbrace, hnode]

end Proofs.Compilation

end BlessStar.Gate
