import BlessStar.Gate.Proofs.Meaning

/-!
# The order of keys

An object whose first key is not `type` is skipped, and the node it stands for
is missing from the chain.  A document compiles to the chain of its reorderings
with the type in front exactly when no object that matters is skipped.
-/

namespace BlessStar.Gate

open Lib.ByteString

/-- The node of a document; objects whose type does not come first have none. -/
def GateDoc.node : GateDoc → Option GateNode
  | .condition first f op v => if first then some (GateAst.condition f op v).node else none
  | .and first left right =>
      if first then
        some (GateNode.register (((GateNode.create (ascii "bs_logic_and") none).linkChild
          left.node).linkChild right.node))
      else none
  | .or first left right =>
      if first then
        some (GateNode.register (((GateNode.create (ascii "bs_logic_or") none).linkChild
          left.node).linkChild right.node))
      else none
  | .not first node => if first then node.node.map GateNode.register else none
  | .thenDo first when doPart =>
      if first then some (thenNode when.node doPart.node).register else none
  | .action first name v => if first then some (GateAst.action name v).node else none

def GateDocument.chain : GateDocument → GateChain
  | .one d => { root := d.node }
  | .array ds =>
      { root := some (ds.foldl (fun root d => root.linkChild d.node)
          (GateNode.create (ascii "bs_gate_root") (some (ascii "_ast_root")))) }

namespace Proofs.KeyOrder

open TokenReading Compilation

variable {ν : Type} {D : CDouble ν}

def Nested (D : CDouble ν) (ts : List (Astok ν)) : Prop :=
  (∀ t ∈ ts, t.isEnd = false) ∧
  ∀ p depth n rest, 0 < depth → p.tok.isEnd = false →
    Reads D (asparseAdvance D p) (ts ++ rest) →
    ∃ p', p'.tok.isEnd = false ∧ Reads D (asparseAdvance D p') rest ∧
      skipLoop D (ts.length + n) depth p = skipLoop D n depth p'

theorem reads_of_append {p : Asparse ν} {ts rest : List (Astok ν)} (h : Reads D p (ts ++ rest)) :
    Reads D p ts := by
  induction ts generalizing p with
  | nil => trivial
  | cons t ts ih => exact ⟨h.1, ih h.2⟩

theorem skipLoop_succ {p : Asparse ν} {depth : Int} (n : Nat) (hend : p.tok.isEnd = false)
    (hdepth : 0 < depth) :
    skipLoop D (n + 1) depth p =
      skipLoop D n (depth + (asparseAdvance D p).tok.depthStep) (asparseAdvance D p) := by
  have hle : ¬depth ≤ 0 := by omega
  rw [skipLoop]
  cases htok : p.tok <;> simp_all [Astok.isEnd]

theorem nested_nil : Nested D ([] : List (Astok ν)) := by
  refine ⟨by simp, ?_⟩
  intro p depth n rest _ hend hreads
  exact ⟨p, hend, hreads, by rw [List.length_nil, Nat.zero_add]⟩

theorem nested_append {ts us : List (Astok ν)} (hts : Nested D ts) (hus : Nested D us) :
    Nested D (ts ++ us) := by
  refine ⟨?_, ?_⟩
  · intro t ht
    exact (List.mem_append.mp ht).elim (hts.1 t) (hus.1 t)
  · intro p depth n rest hdepth hend hreads
    rw [List.append_assoc] at hreads
    obtain ⟨p1, hend1, hreads1, hloop1⟩ := hts.2 p depth (us.length + n) _ hdepth hend hreads
    obtain ⟨p2, hend2, hreads2, hloop2⟩ := hus.2 p1 depth n rest hdepth hend1 hreads1
    refine ⟨p2, hend2, hreads2, ?_⟩
    rw [List.length_append, Nat.add_assoc, hloop1, hloop2]

theorem nested_flatten {tss : List (List (Astok ν))} (h : ∀ ts ∈ tss, Nested D ts) :
    Nested D tss.flatten := by
  induction tss with
  | nil => exact nested_nil
  | cons ts tss ih =>
      rw [List.flatten_cons]
      apply nested_append (h ts List.mem_cons_self)
      exact ih fun us hus => h us (List.mem_cons_of_mem _ hus)

theorem nested_flat {t : Astok ν} (hend : t.isEnd = false) (hdepth : t.depthStep = 0) :
    Nested D [t] := by
  refine ⟨by simpa using hend, ?_⟩
  intro p depth n rest hpos hp hreads
  obtain ⟨htok, hrest⟩ := hreads
  refine ⟨asparseAdvance D p, by rw [htok, hend], hrest, ?_⟩
  rw [List.length_singleton, Nat.add_comm, skipLoop_succ n hp hpos, htok, hdepth, add_zero]

theorem nested_braces {ts : List (Astok ν)} (h : Nested D ts) :
    Nested D (.lbrace :: (ts ++ [.rbrace])) := by
  refine ⟨?_, ?_⟩
  · intro t ht
    simp only [List.mem_cons, List.mem_append, List.not_mem_nil, or_false] at ht
    rcases ht with rfl | ht | rfl
    · rfl
    · exact h.1 t ht
    · rfl
  · intro p depth n rest hpos hp hreads
    simp only [List.cons_append, List.append_assoc, List.nil_append] at hreads
    obtain ⟨hopen, hbody⟩ := hreads
    have hopenEnd : (asparseAdvance D p).tok.isEnd = false := by rw [hopen]; rfl
    obtain ⟨p1, hend1, hreads1, hloop1⟩ :=
      h.2 (asparseAdvance D p) (depth + 1) (n + 1) _ (by omega) hopenEnd hbody
    obtain ⟨hclose, hrest⟩ := hreads1
    refine ⟨asparseAdvance D p1, by rw [hclose]; rfl, hrest, ?_⟩
    have hlen : (Astok.lbrace :: (ts ++ [Astok.rbrace])).length + n = ts.length + (n + 1) + 1 := by
      simp only [List.length_cons, List.length_append, List.length_nil]
      omega
    rw [hlen, skipLoop_succ _ hp hpos, hopen]
    show skipLoop D (ts.length + (n + 1)) (depth + 1) (asparseAdvance D p) = _
    rw [hloop1, skipLoop_succ n hend1 (by omega), hclose]
    show skipLoop D n (depth + 1 + -1) _ = _
    rw [Int.add_neg_cancel_right]

theorem reads_skipNested {ts rest : List (Astok ν)} {p : Asparse ν} (h : Nested D ts)
    (hreads : Reads D p (.lbrace :: (ts ++ [.rbrace]) ++ rest)) :
    Reads D (skipNested D p) rest := by
  simp only [List.cons_append, List.append_assoc, List.nil_append] at hreads
  obtain ⟨hopen, hbody⟩ := hreads
  have hopenEnd : p.tok.isEnd = false := by rw [hopen]; rfl
  have hlen : ts.length ≤ p.rest.length := length_le_rest (reads_of_append hbody) h.1
  obtain ⟨n, hn⟩ := Nat.exists_eq_add_of_le hlen
  obtain ⟨p1, hend1, ⟨hclose, hrest⟩, hloop⟩ := h.2 p 1 (n + 1) _ (by omega) hopenEnd hbody
  have hskip : skipLoop D (p.rest.length + 1) 1 p = asparseAdvance D p1 := by
    rw [hn, Nat.add_assoc, hloop, skipLoop_succ n hend1 (by omega), hclose]
    cases n with
    | zero => rfl
    | succ n => simp [skipLoop, hclose, Astok.depthStep]
  rw [skipNested, hskip, hclose]
  exact hrest

open GateAst (member object)
open GateDoc (Members braced)

/-- A member under another key than `type`. -/
def IsMember (D : CDouble ν) (m : List (Astok ν)) : Prop :=
  ∃ key v, m = member key v ∧ ascii key ≠ ascii "type" ∧ Nested D v

theorem isMember_string {key : String} {v : Bytes} (h : ascii key ≠ ascii "type") :
    IsMember D (member key [.string v]) :=
  ⟨key, _, rfl, h, nested_flat rfl rfl⟩

theorem nested_pair (key : String) {v : List (Astok ν)} (h : Nested D v) :
    Nested D (.string (ascii key) :: .colon :: v) :=
  nested_append (nested_flat rfl rfl) (nested_append (nested_flat (t := .colon) rfl rfl) h)

theorem nested_members {type : String} {members ms : List (List (Astok ν))}
    (hperm : ms.Perm (member "type" [.string (ascii type)] :: members))
    (hmem : ∀ m ∈ members, IsMember D m) : Nested D ms.flatten.tail := by
  have hpair : ∀ m ∈ ms, ∃ key v, m = member key v ∧ Nested D v := by
    intro m hm
    rcases List.mem_cons.mp (hperm.mem_iff.mp hm) with rfl | hm
    · exact ⟨"type", _, rfl, nested_flat rfl rfl⟩
    · obtain ⟨key, v, rfl, -, hv⟩ := hmem m hm
      exact ⟨key, v, rfl, hv⟩
  cases ms with
  | nil => exact nested_nil
  | cons m ms =>
      obtain ⟨key, v, rfl, hv⟩ := hpair m List.mem_cons_self
      have hhead : Nested D (.string (ascii key) :: .colon :: v) := nested_pair key hv
      apply nested_append hhead
      apply nested_flatten
      intro m' hm'
      obtain ⟨key', v', rfl, hv'⟩ := hpair m' (List.mem_cons_of_mem _ hm')
      exact nested_append (nested_flat (t := .comma) rfl rfl) (nested_pair key' hv')

theorem compiles_skipped {type : String} {members ms : List (List (Astok ν))}
    (h : Members false type members ms) (hmem : ∀ m ∈ members, IsMember D m) :
    Compiles D (braced ms) none := by
  have hbody := nested_members h.perm hmem
  have hhead : ∃ key v ms', ms = member key v :: ms' ∧ ascii key ≠ ascii "type" := by
    cases ms with
    | nil => exact absurd h.perm.length_eq (by simp)
    | cons m ms' =>
        have hne : m ≠ member "type" [.string (ascii type)] := by
          intro heq
          exact absurd (h.first_iff.mpr (by rw [heq]; rfl)) (by simp)
        have hm := (List.mem_cons.mp (h.perm.mem_iff.mp List.mem_cons_self)).resolve_left hne
        obtain ⟨key, v, rfl, hkey, -⟩ := hmem m hm
        exact ⟨key, v, ms', rfl, hkey⟩
  obtain ⟨key, v, ms', rfl, hkey⟩ := hhead
  intro n p ts hn hreads
  obtain ⟨k, rfl⟩ : ∃ k, n = k + 1 :=
    ⟨n - 1, by simp only [braced, List.length_cons] at hn; omega⟩
  have hskip := reads_skipNested hbody hreads
  obtain ⟨hopen, hkeyTok, hcolon, -⟩ := hreads
  have hpeek : peekType D p = none := by
    simp [peekType, hopen, hkeyTok, hcolon, hkey]
  refine ⟨hopen, _, hskip, ?_⟩
  simp [compileAstNode, hopen, hpeek, Astok.isLbrace]

theorem braced_first {type : String} {members ms : List (List (Astok ν))}
    (h : Members true type members ms) :
    ∃ ms', ms'.Perm members ∧ braced ms = object type ms' := by
  have hhead := h.first_iff.mp rfl
  cases ms with
  | nil => exact absurd hhead (by simp)
  | cons m ms' =>
      obtain rfl : m = member "type" [.string (ascii type)] := by simpa using hhead
      exact ⟨ms', (List.perm_cons _).mp h.perm, rfl⟩

theorem compiles_braced {first : Bool} (type : String) {members ms : List (List (Astok ν))}
    {us : List (AstFields → AstFields)} {node : Option GateNode}
    (h : Members first type members ms) (hmem : ∀ m ∈ members, IsMember D m)
    (hsets : List.Forall₂ (Sets D) members us)
    (hcomm : ∀ u ∈ us, ∀ v ∈ us, ∀ f, v (u f) = u (v f))
    (hnode : (buildNode (ascii type)
      (us.foldl (fun f u => u f) { type := some (ascii type) })).map GateNode.register = node) :
    Compiles D (braced ms) (if first then node else none) ∧ Nested D (braced ms) := by
  refine ⟨?_, nested_braces (nested_members h.perm hmem)⟩
  cases first with
  | false => exact compiles_skipped h hmem
  | true =>
      obtain ⟨ms', hperm, hobject⟩ := braced_first h
      rw [hobject]
      exact compiles_object type hperm hsets hcomm hnode

/-- **A document compiles to its node.** -/
theorem compiles_doc {d : GateDoc} {ts : List (Astok ν)} (h : d.Tokens ts) :
    Compiles D ts d.node ∧ Nested D ts := by
  have two : ∀ {k k' : String} {t t' : List (Astok ν)}, ascii k ≠ ascii "type" →
      ascii k' ≠ ascii "type" → Nested D t → Nested D t' →
      ∀ m ∈ [member k t, member k' t'], IsMember D m := by
    intro k k' t t' hk hk' ht ht' m hm
    simp only [List.mem_cons, List.not_mem_nil, or_false] at hm
    rcases hm with rfl | rfl
    · exact ⟨k, t, rfl, hk, ht⟩
    · exact ⟨k', t', rfl, hk', ht'⟩
  have one : ∀ v : Bytes, Nested D [.string v] := fun _ => nested_flat rfl rfl
  induction h with
  | condition hm =>
      refine compiles_braced "condition" hm ?_
        (.cons (sets_field _) (.cons (sets_op _) (.cons (sets_value _) .nil))) (by simp) rfl
      intro m hmem
      rcases List.mem_cons.mp hmem with rfl | hmem
      · exact isMember_string (by decide)
      · exact two (by decide) (by decide) (one _) (one _) m hmem
  | and _ _ hm ihl ihr =>
      exact compiles_braced "and" hm (two (by decide) (by decide) ihl.2 ihr.2)
        (.cons (sets_node "left" rfl ihl.1) (.cons (sets_node "right" rfl ihr.1) .nil))
        (by simp [AstFields.setNode]) rfl
  | or _ _ hm ihl ihr =>
      exact compiles_braced "or" hm (two (by decide) (by decide) ihl.2 ihr.2)
        (.cons (sets_node "left" rfl ihl.1) (.cons (sets_node "right" rfl ihr.1) .nil))
        (by simp [AstFields.setNode]) rfl
  | not _ hm ih =>
      refine compiles_braced "not" hm ?_ (.cons (sets_node "node" rfl ih.1) .nil) (by simp) rfl
      intro m hmem
      rw [List.mem_singleton.mp hmem]
      exact ⟨"node", _, rfl, by decide, ih.2⟩
  | thenDo _ _ hm ihw ihd =>
      exact compiles_braced "then" hm (two (by decide) (by decide) ihw.2 ihd.2)
        (.cons (sets_node "when" rfl ihw.1) (.cons (sets_node "do" rfl ihd.1) .nil))
        (by simp [AstFields.setNode]) rfl
  | action hm =>
      exact compiles_braced "action" hm (two (by decide) (by decide) (one _) (one _))
        (.cons (sets_name _) (.cons (sets_value _) .nil)) (by simp) rfl

theorem compileArray_tokens {ds : List GateDoc} {tss : List (List (Astok ν))}
    (h : List.Forall₂ GateDoc.Tokens ds tss) {n : Nat} {p : Asparse ν} (root : GateNode)
    (hn : (tss.map fun ts => Astok.comma :: ts).flatten.length < n)
    (hreads : Reads D p ((tss.map fun ts => Astok.comma :: ts).flatten ++ [.rbrack])) :
    compileArray D n (skipComma D p) root =
      some (ds.foldl (fun root d => root.linkChild d.node) root) := by
  induction h generalizing n p root with
  | nil =>
      obtain ⟨hclose, -⟩ := hreads
      obtain ⟨k, rfl⟩ : ∃ k, n = k + 1 := ⟨n - 1, by omega⟩
      simp [compileArray, skipComma, hclose, Astok.isComma, Astok.isLbrace]
  | @cons d ts ds tss hd _ ih =>
      obtain ⟨k, rfl⟩ : ∃ k, n = k + 1 := ⟨n - 1, by omega⟩
      simp only [List.map_cons, List.flatten_cons, List.cons_append, List.append_assoc,
        List.length_cons, List.length_append] at hn hreads
      obtain ⟨hcomma, hbody⟩ := hreads
      obtain ⟨hbrace, p', hrest, hnode⟩ := (compiles_doc hd).1 k _ _ (by omega) hbody
      rw [skipComma_of_comma hcomma, compileArray]
      simp only [hbrace, Astok.isLbrace, Bool.true_eq_false, if_false, hnode]
      exact ih (root.linkChild d.node) (by omega) hrest

/-- **A text compiles to the chain of its document.** -/
theorem gateAstCompile_document {d : GateDocument} {ts : List (Astok ν)} {json : Bytes}
    (htokens : d.Tokens ts) (hspell : Spells ts json) :
    gateAstCompile D json = some d.chain := by
  have htext : cstr json = json := cstr_eq_self (not_zero_mem_text hspell)
  have hlen := length_le_of_spells hspell
  have hreads := reads_lex D hspell
  cases htokens with
  | @one d ts hd =>
      rw [← List.append_nil ts] at hreads
      obtain ⟨hbrace, p', _, hnode⟩ :=
        (compiles_doc hd).1 (json.length + 2) (lex D json) [] (by omega) hreads
      simp [gateAstCompile, htext, hbrace, hnode, GateDocument.chain]
  | @array ds tss hds =>
      obtain ⟨hopen, hbody⟩ := hreads
      have harray : compileArray D (json.length + 2) (asparseAdvance D (lex D json))
          (GateNode.create (ascii "bs_gate_root") (some (ascii "_ast_root"))) =
          some (ds.foldl (fun root d => root.linkChild d.node)
            (GateNode.create (ascii "bs_gate_root") (some (ascii "_ast_root")))) := by
        cases hds with
        | nil => simp [compileArray, hbody.1, Astok.isLbrace]
        | @cons d ts ds tss hd hds =>
            simp only [List.map_cons, List.flatten_cons, List.cons_append, List.tail_cons,
              List.append_assoc, List.length_cons, List.length_append] at hlen hbody
            obtain ⟨hbrace, p', hrest, hnode⟩ :=
              (compiles_doc hd).1 (json.length + 1) _ _ (by omega) hbody
            rw [compileArray]
            simp only [hbrace, Astok.isLbrace, Bool.true_eq_false, if_false, hnode]
            exact compileArray_tokens hds _ (by omega) hrest
      simp [gateAstCompile, htext, hopen, harray, GateDocument.chain]

/-- What a `then` takes from the node of its when-part. -/
def whenView (w : Option GateNode) : Option Bytes × Option Bytes × Option Bytes × List GateNode :=
  match w with
  | none => (none, none, none, [])
  | some w => (w.scalars.fieldKey, w.scalars.op, w.scalars.value, w.children)

theorem whenView_register (n : GateNode) : whenView (some n.register) = whenView (some n) := by
  obtain ⟨s, children, doNodes⟩ := n
  unfold GateNode.register
  split <;> rfl

theorem register_register (n : GateNode) : n.register.register = n.register := by
  obtain ⟨⟨type, id, field, op, value, key, layer⟩, children, doNodes⟩ := n
  cases key <;> cases field <;> cases op <;> rfl

def unkeyed (n : GateNode) : GateNode :=
  .mk { n.scalars with stableKey := none } n.children n.doNodes

theorem unkeyed_register (n : GateNode) : unkeyed n.register = unkeyed n := by
  obtain ⟨s, children, doNodes⟩ := n
  unfold GateNode.register
  split <;> rfl

theorem register_inj {n m : GateNode} (hn : unkeyed n = n) (hm : unkeyed m = m) :
    n.register = m.register ↔ n = m := by
  refine ⟨fun h => ?_, fun h => congrArg _ h⟩
  calc
    n = unkeyed n := hn.symm
    _ = unkeyed n.register := (unkeyed_register n).symm
    _ = unkeyed m.register := by rw [h]
    _ = unkeyed m := unkeyed_register m
    _ = m := hm

theorem ast_node_register (a : GateAst) : a.node.register = a.node := by
  cases a <;> exact register_register _

theorem node_register (d : GateDoc) : d.node.map GateNode.register = d.node := by
  cases d with
  | condition first f op v => cases first <;> simp [GateDoc.node, ast_node_register]
  | and first l r => cases first <;> simp [GateDoc.node, register_register]
  | or first l r => cases first <;> simp [GateDoc.node, register_register]
  | not first d =>
      cases first with
      | false => rfl
      | true => cases h : d.node <;> simp [GateDoc.node, h, register_register]
  | thenDo first w d => cases first <;> simp [GateDoc.node, register_register]
  | action first name v => cases first <;> simp [GateDoc.node, ast_node_register]

theorem whenView_node_ne (a : GateAst) : whenView none ≠ whenView (some a.node) := by
  induction a with
  | condition f op v =>
      rw [GateAst.node, whenView_register]
      simp [whenView, GateNode.scalars]
  | and l r => 
      rw [GateAst.node, whenView_register]
      simp [whenView, GateNode.scalars, GateNode.children, GateNode.linkChild]
  | or l r => 
      rw [GateAst.node, whenView_register]
      simp [whenView, GateNode.scalars, GateNode.children, GateNode.linkChild]
  | not a ih =>
      rw [GateAst.node, whenView_register]
      exact ih
  | thenDo w d ih _ =>
      rw [GateAst.node, whenView_register]
      exact ih
  | action name v =>
      rw [GateAst.node, whenView_register]
      simp [whenView, GateNode.scalars]

theorem children_eq_iff {x y : Option GateNode} {l r : GateNode} :
    x.toList ++ y.toList = [l, r] ↔ x = some l ∧ y = some r := by
  cases x <;> cases y <;> simp

theorem logicNode_eq_iff (type : Bytes) {x y : Option GateNode} {l r : GateNode} :
    (((GateNode.create type none).linkChild x).linkChild y).register =
        (((GateNode.create type none).linkChild (some l)).linkChild (some r)).register ↔
      x = some l ∧ y = some r := by
  rw [register_inj rfl rfl, ← children_eq_iff]
  simp [GateNode.linkChild, GateNode.create, GateNode.scalars, GateNode.children,
    GateNode.doNodes]

theorem logicNode_view_iff (type : Bytes) {x y : Option GateNode} {l r : GateNode} :
    whenView (some (((GateNode.create type none).linkChild x).linkChild y)) =
        whenView (some (((GateNode.create type none).linkChild (some l)).linkChild (some r))) ↔
      x = some l ∧ y = some r := by
  rw [← children_eq_iff]
  simp [GateNode.linkChild, GateNode.create, GateNode.scalars, GateNode.children, whenView]

theorem thenNode_view (w d : Option GateNode) : whenView (some (thenNode w d)) = whenView w := by
  cases w <;> rfl

theorem thenNode_eq_iff {w d : Option GateNode} {w' d' : GateNode} :
    (thenNode w d).register = (thenNode (some w') (some d')).register ↔
      whenView w = whenView (some w') ∧ d = some d' := by
  rw [register_inj (by cases w <;> rfl) rfl]
  cases w <;> cases d <;>
    simp [thenNode, whenView, GateNode.linkDo, GateNode.create, GateNode.scalars,
      GateNode.children, GateNode.doNodes, and_assoc]

theorem leads_iff (d : GateDoc) :
    (d.node = some d.ast.node ↔ d.LeadsAs false) ∧
      (whenView d.node = whenView (some d.ast.node) ↔ d.LeadsAs true) := by
  induction d with
  | condition first f op v =>
      cases first with
      | false => simp [GateDoc.node, GateDoc.LeadsAs, GateDoc.ast, whenView_node_ne]
      | true => simp [GateDoc.node, GateDoc.LeadsAs, GateDoc.ast]
  | and first l r ihl ihr =>
      cases first with
      | false => simp [GateDoc.node, GateDoc.LeadsAs, GateDoc.ast, whenView_node_ne]
      | true =>
          simp only [GateDoc.node, GateDoc.LeadsAs, GateDoc.ast, GateAst.node, if_true, true_and,
            Option.some.injEq, whenView_register, logicNode_eq_iff, logicNode_view_iff, ihl.1,
            ihr.1, and_self]
  | or first l r ihl ihr =>
      cases first with
      | false => simp [GateDoc.node, GateDoc.LeadsAs, GateDoc.ast, whenView_node_ne]
      | true =>
          simp only [GateDoc.node, GateDoc.LeadsAs, GateDoc.ast, GateAst.node, if_true, true_and,
            Option.some.injEq, whenView_register, logicNode_eq_iff, logicNode_view_iff, ihl.1,
            ihr.1, and_self]
  | not first d ih =>
      cases first with
      | false => simp [GateDoc.node, GateDoc.LeadsAs, GateDoc.ast, whenView_node_ne]
      | true =>
          simp only [GateDoc.node, GateDoc.LeadsAs, GateDoc.ast, GateAst.node, if_true, true_and,
            node_register, ast_node_register]
          exact ih
  | thenDo first w d ihw ihd =>
      cases first with
      | false => simp [GateDoc.node, GateDoc.LeadsAs, GateDoc.ast, whenView_node_ne]
      | true =>
          simp only [GateDoc.node, GateDoc.LeadsAs, GateDoc.ast, GateAst.node, if_true, true_and,
            Option.some.injEq, thenNode_eq_iff, whenView_register, thenNode_view, ihw.2, ihd.1]
          simp
  | action first name v =>
      cases first with
      | false => simp [GateDoc.node, GateDoc.LeadsAs, GateDoc.ast, whenView_node_ne]
      | true => simp [GateDoc.node, GateDoc.LeadsAs, GateDoc.ast]

theorem foldl_linkChild (ds : List GateDoc) (root : GateNode) :
    ds.foldl (fun root d => root.linkChild d.node) root =
      .mk root.scalars (root.children ++ ds.filterMap GateDoc.node) root.doNodes := by
  induction ds generalizing root with
  | nil => obtain ⟨s, children, doNodes⟩ := root; simp [GateNode.scalars, GateNode.children,
      GateNode.doNodes]
  | cons d ds ih =>
      rw [List.foldl_cons, ih]
      cases h : d.node <;>
        simp [GateNode.linkChild, GateNode.scalars, GateNode.children, GateNode.doNodes, h]

theorem filterMap_node_iff (ds : List GateDoc) :
    ds.filterMap GateDoc.node = ds.map (fun d => d.ast.node) ↔ ∀ d ∈ ds, d.LeadsAs false := by
  induction ds with
  | nil => simp
  | cons d ds ih =>
      rw [List.forall_mem_cons, ← ih, ← (leads_iff d).1, List.map_cons]
      cases h : d.node with
      | some n => simp [h]
      | none =>
          have hlen : (ds.filterMap GateDoc.node).length ≤ ds.length := List.length_filterMap_le _ _
          rw [List.filterMap_cons_none h]
          refine iff_of_false (fun heq => ?_) (by simp)
          have hlen' := congrArg List.length heq
          simp only [List.length_cons, List.length_map] at hlen'
          omega

theorem leads_of_chain {d d' : GateDocument} (hsame : d.Reorders d') (hlead : d'.Leads) :
    d.chain = d'.chain ↔ d.Leads := by
  cases d with
  | one d =>
      cases d' with
      | array ds' => exact absurd hsame id
      | one d' =>
          have hast : d.ast = d'.ast := hsame
          simp only [GateDocument.chain, GateDocument.Leads, GateChain.mk.injEq,
            (leads_iff d').1.mpr hlead, ← hast, and_true]
          exact (leads_iff d).1
  | array ds =>
      cases d' with
      | one d' => exact absurd hsame id
      | array ds' =>
          have hast : ds.map GateDoc.ast = ds'.map GateDoc.ast := hsame
          have hall : ds'.filterMap GateDoc.node = ds.map (fun d => d.ast.node) := by
            calc
              ds'.filterMap GateDoc.node = ds'.map (fun d => d.ast.node) :=
                (filterMap_node_iff ds').mpr hlead
              _ = (ds'.map GateDoc.ast).map GateAst.node := by rw [List.map_map]; rfl
              _ = (ds.map GateDoc.ast).map GateAst.node := by rw [hast]
              _ = ds.map (fun d => d.ast.node) := by rw [List.map_map]; rfl
          simp only [GateDocument.chain, GateDocument.Leads, foldl_linkChild, hall,
            ← filterMap_node_iff, GateChain.mk.injEq, Option.some.injEq, GateNode.mk.injEq,
            true_and, and_true, List.append_cancel_left_eq]

/-- **The order of keys.**  A text compiles to the same chain as a text of the
same document whose types come first if and only if its types come first. -/
theorem key_order_iff {d d' : GateDocument} {ts ts' : List (Astok ν)} {json json' : Bytes}
    (htokens : d.Tokens ts) (hspell : Spells ts json) (htokens' : d'.Tokens ts')
    (hspell' : Spells ts' json') (hsame : d.Reorders d') (hlead : d'.Leads) :
    gateAstCompile D json = gateAstCompile D json' ↔ d.Leads := by
  rw [gateAstCompile_document htokens hspell, gateAstCompile_document htokens' hspell',
    Option.some.injEq]
  exact leads_of_chain hsame hlead

def printFlat : List (String × String) → Bytes
  | [] => ascii "\x7b\x7d"
  | (key, v) :: rest =>
      ascii "\x7b" ++ quoted (ascii key) ++ ascii ":" ++ quoted (ascii v) ++
        (rest.map fun kv => printMember kv.1 (quoted (ascii kv.2))).flatten ++ ascii "\x7d"

def flatMembers (kvs : List (String × String)) : List (List (Astok Int)) :=
  kvs.map fun kv => GateAst.member kv.1 [.string (ascii kv.2)]

theorem spells_flat {kvs : List (String × String)}
    (h : ∀ kv ∈ kvs, (0 : UInt8) ∉ ascii kv.1 ∧ (0 : UInt8) ∉ ascii kv.2) :
    Spells (braced (flatMembers kvs)) (printFlat kvs) := by
  have hrest : ∀ kvs : List (String × String),
      (∀ kv ∈ kvs, (0 : UInt8) ∉ ascii kv.1 ∧ (0 : UInt8) ∉ ascii kv.2) →
      Spells (flatMembers kvs).flatten
        (kvs.map fun kv => printMember kv.1 (quoted (ascii kv.2))).flatten := by
    intro kvs hkvs
    induction kvs with
    | nil => exact .nil (by simp)
    | cons kv kvs ih =>
        have hkv := hkvs kv List.mem_cons_self
        exact spells_append (spells_member hkv.1 (spells_quoted hkv.2))
          (ih fun x hx => hkvs x (List.mem_cons_of_mem _ hx))
  cases kvs with
  | nil => exact spells_append (spells_token .lbrace) (spells_token .rbrace)
  | cons kv kvs =>
      obtain ⟨key, v⟩ := kv
      have hkv := h (key, v) List.mem_cons_self
      have hopen := spells_append (spells_token (ν := Int) .lbrace) (spells_quoted hkv.1)
      have hpair := spells_append (spells_append hopen (spells_token .colon)) (spells_quoted hkv.2)
      have hbody := spells_append hpair (hrest kvs fun x hx => h x (List.mem_cons_of_mem _ hx))
      have hall := spells_append hbody (spells_token .rbrace)
      simpa [braced, flatMembers, GateAst.member, printFlat] using hall

/-- `a = 1`, with its type in front or not. -/
def aIsOne (first : Bool) : GateDocument :=
  .one (.condition first (ascii "a") (ascii "eq") (ascii "1"))

def typeFirst : List (String × String) :=
  [("type", "condition"), ("field", "a"), ("op", "eq"), ("value", "1")]

def typeFirstReversed : List (String × String) :=
  [("type", "condition"), ("value", "1"), ("op", "eq"), ("field", "a")]

def fieldFirst : List (String × String) :=
  [("field", "a"), ("type", "condition"), ("op", "eq"), ("value", "1")]

theorem aIsOne_tokens {first : Bool} {kvs : List (String × String)} (hperm : kvs.Perm typeFirst)
    (hfirst : first = true ↔ (flatMembers kvs).head? =
      some (GateAst.member "type" [.string (ascii "condition")])) :
    (aIsOne first).Tokens (braced (flatMembers kvs)) :=
  .one (.condition ⟨hperm.map _, hfirst⟩)

theorem fieldFirst_tokens : (aIsOne false).Tokens (braced (flatMembers fieldFirst)) := by
  have hne : ascii "field" ≠ ascii "type" := by decide
  exact aIsOne_tokens (by decide) (by simp [fieldFirst, flatMembers, GateAst.member, hne])

theorem typeFirst_tokens : (aIsOne true).Tokens (braced (flatMembers typeFirst)) :=
  aIsOne_tokens (by decide) (by simp [typeFirst, flatMembers])

/-- The condition whose field comes first is not in the chain. -/
theorem field_first_is_dropped :
    ¬ ∀ (d d' : GateDocument) (ts ts' : List (Astok Int)) (json json' : Bytes),
      d.Tokens ts → Spells ts json → d'.Tokens ts' → Spells ts' json' → d.Reorders d' →
      gateAstCompile Meaning.wholeNumbers json = gateAstCompile Meaning.wholeNumbers json' := by
  intro h
  have hfield : Spells _ (printFlat fieldFirst) := spells_flat (by decide)
  have htype : Spells _ (printFlat typeFirst) := spells_flat (by decide)
  have heq := h _ _ _ _ _ _ fieldFirst_tokens hfield typeFirst_tokens htype rfl
  rw [gateAstCompile_document fieldFirst_tokens hfield,
    gateAstCompile_document typeFirst_tokens htype] at heq
  cases heq

theorem key_order_type_first :
    gateAstCompile Meaning.wholeNumbers (printFlat typeFirstReversed) =
      gateAstCompile Meaning.wholeNumbers (printFlat typeFirst) := by
  have hreversed : (aIsOne true).Tokens (braced (flatMembers typeFirstReversed)) :=
    aIsOne_tokens (by decide) (by simp [typeFirstReversed, flatMembers])
  exact (key_order_iff hreversed (spells_flat (by decide)) typeFirst_tokens
    (spells_flat (by decide)) rfl rfl).mpr rfl

end Proofs.KeyOrder

end BlessStar.Gate
