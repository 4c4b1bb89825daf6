import BlessStar.Gate.Proofs.JsonRoundTrip
import BlessStar.Gate.Proofs.Meaning

/-!
# Gates that are compiled, stored and loaded

The chain of an AST keeps its verdicts through the JSON text of the chain.
-/

namespace BlessStar.Gate

open Lib.ByteString

/-- The strings have no control bytes but line feeds, carriage returns and tabs. -/
def GateAst.Kept : GateAst → Prop
  | condition f op v => ∀ c ∈ f ++ op ++ v, KeptByte c
  | and left right => left.Kept ∧ right.Kept
  | or left right => left.Kept ∧ right.Kept
  | not node => node.Kept
  | thenDo when doPart => when.Kept ∧ doPart.Kept
  | action name v => ∀ c ∈ name ++ v, KeptByte c

namespace Proofs.StoredGates

open JsonRoundTrip

def Storable (s : GateScalars) : Prop := s.Kept ∧ s.LayerDefined

mutual

theorem forall_mono {P Q : GateScalars → Prop} (h : ∀ s, P s → Q s) :
    ∀ n : GateNode, n.Forall P → n.Forall Q
  | .mk s children doNodes, hn =>
      ⟨h s hn.1, forallIn_mono h children hn.2.1, forallIn_mono h doNodes hn.2.2⟩

theorem forallIn_mono {P Q : GateScalars → Prop} (h : ∀ s, P s → Q s) :
    ∀ ns : List GateNode, GateNode.ForallIn P ns → GateNode.ForallIn Q ns
  | [], _ => trivial
  | n :: ns, hns => ⟨forall_mono h n hns.1, forallIn_mono h ns hns.2⟩

end

theorem forallIn_append {P : GateScalars → Prop} {ns : List GateNode}
    (hns : GateNode.ForallIn P ns) {n : GateNode} (hn : n.Forall P) :
    GateNode.ForallIn P (ns ++ [n]) := by
  induction ns with
  | nil => exact ⟨hn, trivial⟩
  | cons m ms ih => exact ⟨hns.1, ih hns.2⟩

theorem forall_linkChild {P : GateScalars → Prop} {n child : GateNode} (hn : n.Forall P)
    (hchild : child.Forall P) : (n.linkChild (some child)).Forall P := by
  cases n
  exact ⟨hn.1, forallIn_append hn.2.1 hchild, hn.2.2⟩

theorem keptByte_decimal {n : Nat} {c : UInt8} (h : c ∈ decimal n) : KeptByte c := by
  have hrange := (isDigit_of_mem_decimal h).decimal_range
  exact Or.inl (UInt8.le_iff_toNat_le.mpr (by simp; omega))

theorem keptByte_ascii {s : String} (h : (ascii s).all (KeptByte ·) = true) :
    ∀ c ∈ ascii s, KeptByte c := by
  simpa using h

theorem storable_iff (s : GateScalars) :
    Storable s ↔ (∀ opt ∈ [s.type, s.id, s.fieldKey, s.op, s.value, s.stableKey, s.subCategory,
      s.domain, s.entity], ∀ str ∈ opt, ∀ c ∈ str, KeptByte c) ∧ s.LayerDefined := by
  refine and_congr_left fun _ => ⟨fun h opt hopt str hstr => h str
    (List.mem_filterMap.mpr ⟨opt, hopt, hstr⟩), fun h str hstr => ?_⟩
  obtain ⟨opt, hopt, hstr⟩ := List.mem_filterMap.mp hstr
  exact h opt hopt str hstr

/-- A node with a type, a field, an operator and a value, in the default layer. -/
theorem storable_leaf {type f op v : Option Bytes} {children doNodes : List GateNode}
    (h : ∀ opt ∈ [type, f, op, v], ∀ str ∈ opt, ∀ c ∈ str, KeptByte c)
    (hchildren : GateNode.ForallIn Storable children)
    (hdoNodes : GateNode.ForallIn Storable doNodes) :
    (GateNode.mk { type := type, fieldKey := f, op := op, value := v } children
      doNodes).Forall Storable := by
  refine ⟨(storable_iff _).mpr ⟨?_, by simp [GateScalars.LayerDefined, gateLayerCount,
    gateLayerDefault]⟩, hchildren, hdoNodes⟩
  simpa using h

theorem storable_create {type : Bytes} (h : ∀ c ∈ type, KeptByte c) :
    (GateNode.create type none).Forall Storable :=
  storable_leaf (by simpa using h) trivial trivial

theorem storable_register {n : GateNode} (h : n.Forall Storable) :
    n.register.Forall Storable := by
  obtain ⟨s, children, doNodes⟩ := n
  unfold GateNode.register
  split
  · rename_i field op hkey hfield hop
    dsimp only [GateNode.scalars] at hfield hop ⊢
    obtain ⟨hkept, hlayer⟩ := (storable_iff s).mp h.1
    refine ⟨(storable_iff _).mpr ⟨?_, hlayer⟩, h.2⟩
    have hparts : ∀ c ∈ ascii "ast:" ++ field ++ ascii ":" ++ op ++ ascii ":" ++
        decimal s.layer.toNat ++ ascii ":compiled", KeptByte c := by
      simp only [List.forall_mem_append]
      refine ⟨⟨⟨⟨⟨⟨keptByte_ascii (by decide), ?_⟩, keptByte_ascii (by decide)⟩, ?_⟩,
        keptByte_ascii (by decide)⟩, fun c hc => keptByte_decimal hc⟩, keptByte_ascii (by decide)⟩
      · exact hkept _ (by simp) field hfield
      · exact hkept _ (by simp) op hop
    have hkeptKey := fun c (hc : c ∈ List.take 255 _) => hparts c (List.mem_of_mem_take hc)
    simp only [List.forall_mem_cons] at hkept ⊢
    obtain ⟨htype, hid, hf, ho, hv, -, hrest⟩ := hkept
    exact ⟨htype, hid, hf, ho, hv, by simpa using hkeptKey, hrest⟩
  · exact h

theorem storable_thenNode {w d : GateNode} (hw : w.Forall Storable) (hd : d.Forall Storable) :
    (thenNode (some w) (some d)).Forall Storable := by
  obtain ⟨s, children, doNodes⟩ := w
  have hkept := ((storable_iff s).mp hw.1).1
  refine storable_leaf ?_ hw.2.1 ⟨hd, trivial⟩
  simp only [List.forall_mem_cons] at hkept ⊢
  obtain ⟨-, -, hf, ho, hv, -⟩ := hkept
  refine ⟨fun str hstr => ?_, hf, ho, hv, by simp⟩
  cases hstr
  exact keptByte_ascii (by decide)

theorem storable_node {a : GateAst} (h : a.Kept) : a.node.Forall Storable := by
  induction a with
  | condition f op v =>
      simp only [GateAst.Kept, List.forall_mem_append] at h
      refine storable_register (storable_leaf ?_ trivial trivial)
      simpa [and_assoc] using And.intro (keptByte_ascii (s := "bs_condition") (by decide)) h
  | and left right ihl ihr =>
      apply storable_register
      exact forall_linkChild (forall_linkChild (storable_create (keptByte_ascii (by decide)))
        (ihl h.1)) (ihr h.2)
  | or left right ihl ihr =>
      apply storable_register
      exact forall_linkChild (forall_linkChild (storable_create (keptByte_ascii (by decide)))
        (ihl h.1)) (ihr h.2)
  | not node ih => exact storable_register (ih h)
  | thenDo when doPart ihw ihd => exact storable_register (storable_thenNode (ihw h.1) (ihd h.2))
  | action name v =>
      simp only [GateAst.Kept, List.forall_mem_append] at h
      refine storable_register (storable_leaf ?_ trivial trivial)
      simpa using And.intro (keptByte_ascii (s := "bs_meta_rule") (by decide))
        (And.intro h.1 (And.intro (keptByte_ascii (s := "action") (by decide)) h.2))

variable {ν : Type} {D : CNumber ν}

/-- **Compile, store, load, evaluate.**  The text of the chain compiled from an AST is loaded
again, and what is loaded passes exactly when the AST does; for an AST of conditions,
actions, `and`s and `or`s that is its Boolean reading. -/
theorem stored_gate_passes (hD : StrtodSpec D) {a : GateAst}
    {ts : List (Astok ν)} {json : Bytes} (htokens : a.Tokens ts) (hspell : Spells ts json)
    (hthen : a.ThenOnLeaves) (hkept : a.Kept) (field value : Bytes) :
    ∃ chain n, gateAstCompile D.toCDouble json = some chain ∧ ∀ fuel, n ≤ fuel →
      ∃ loaded, gateChainFromJson D fuel (gateChainToJson chain) = some (some loaded) ∧
        (gateEvaluatorEvaluate D.toCDouble ⟨some field, some value⟩ loaded).passed =
          a.passes D.toCDouble field value ∧
        (a.IsPositive → a.passes D.toCDouble field value = a.holds D.toCDouble field value) := by
  have hnode := storable_node hkept
  have hnul : a.node.Forall GateScalars.NoNul := forall_mono (fun s hs str hstr h0 =>
    absurd (hs.1 str hstr 0 h0) (by decide)) a.node hnode
  have hback := (node_readBack_iff a.node).mpr (forall_mono (fun s hs => hs.1) a.node hnode)
  obtain ⟨n, hn⟩ := fromJson_of_plain hD (v := ascii "1.0") (by decide) hnul
    (forall_mono (fun s hs => hs.2) a.node hnode) (by decide) (by decide)
  rw [hback] at hn
  exact ⟨_, n, Compilation.gateAstCompile_text htokens hspell, fun fuel hfuel => ⟨_, hn fuel hfuel,
    Meaning.evaluate_node D.toCDouble field value hthen, Meaning.passes_eq_holds D.toCDouble field value⟩⟩

theorem stored_gate_passes_price :
    ∃ chain n, gateAstCompile naturals.toCDouble (GateAst.and
        (.condition (ascii "price") (ascii "gt") (ascii "10"))
        (.condition (ascii "price") (ascii "lt") (ascii "20"))).json = some chain ∧
      ∀ fuel, n ≤ fuel →
        ∃ loaded, gateChainFromJson naturals fuel (gateChainToJson chain) = some (some loaded) ∧
          (gateEvaluatorEvaluate naturals.toCDouble ⟨some (ascii "price"), some (ascii "25")⟩
            loaded).passed = false := by
  set a := GateAst.and (.condition (ascii "price") (ascii "gt") (ascii "10"))
    (.condition (ascii "price") (ascii "lt") (ascii "20"))
  have hnul : a.NoNul := by
    refine ⟨⟨?_, ?_, ?_⟩, ?_, ?_, ?_⟩ <;> decide
  have hkept : a.Kept :=
    ⟨List.all_iff_forall_prop.mp (by decide), List.all_iff_forall_prop.mp (by decide)⟩
  obtain ⟨ts, htokens, hspell⟩ := TokenReading.exists_tokens hnul
  obtain ⟨chain, n, hchain, hloads⟩ := stored_gate_passes naturals_spec htokens hspell
    ⟨trivial, trivial⟩ hkept (ascii "price") (ascii "25")
  refine ⟨chain, n, hchain, fun fuel hfuel => ?_⟩
  obtain ⟨loaded, hload, hpassed, hholds⟩ := hloads fuel hfuel
  exact ⟨loaded, hload, hpassed.trans ((hholds ⟨trivial, trivial⟩).trans (by decide))⟩

end Proofs.StoredGates

end BlessStar.Gate
