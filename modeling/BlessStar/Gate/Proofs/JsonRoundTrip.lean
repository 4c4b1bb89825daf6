import BlessStar.Gate.Proofs.JsonVersion

/-!
# The round trip of a chain

A chain that is written and read again is the same chain if and only if its
strings have no control bytes that only `\u` could write and its version has
neither a quote nor a backslash.
-/

namespace BlessStar.Gate

open Lib.ByteString

/-- The strings of a node that are not `NULL`. -/
def GateScalars.strings (s : GateScalars) : List Bytes :=
  [s.type, s.id, s.fieldKey, s.op, s.value, s.stableKey, s.subCategory, s.domain,
    s.entity].filterMap fun str => str

def GateScalars.NoNul (s : GateScalars) : Prop := ∀ str ∈ s.strings, (0 : UInt8) ∉ str

def KeptByte (c : UInt8) : Prop := 32 ≤ c ∨ c = 10 ∨ c = 13 ∨ c = 9

instance : DecidablePred KeptByte := fun c =>
  inferInstanceAs (Decidable (32 ≤ c ∨ c = 10 ∨ c = 13 ∨ c = 9))

def GateScalars.Kept (s : GateScalars) : Prop := ∀ str ∈ s.strings, ∀ c ∈ str, KeptByte c

def GateChain.RoundTrips {ν : Type} (D : CNumber ν) (chain : GateChain) : Prop :=
  ∃ n, ∀ fuel, n ≤ fuel → gateChainFromJson D fuel (gateChainToJson chain) = some (some chain)

namespace Proofs.JsonRoundTrip

open TokenReading Compilation JsonReading JsonVersion

theorem intercalate_noNul {sep : Bytes} {xs : List Bytes} (hsep : (0 : UInt8) ∉ sep)
    (h : ∀ x ∈ xs, (0 : UInt8) ∉ x) : (0 : UInt8) ∉ sep.intercalate xs := by
  induction xs with
  | nil => simp
  | cons x xs ih =>
      rw [List.forall_mem_cons] at h
      cases xs with
      | nil => simpa using h.1
      | cons y ys =>
          rw [List.intercalate_cons_cons]
          simp [h.1, hsep, ih h.2]

theorem indentation_noNul (indent : Nat) : (0 : UInt8) ∉ indentation indent := by
  intro h
  have hblank : (0 : UInt8) ∉ ascii "  " := by decide
  obtain ⟨s, hs, h0⟩ := List.mem_flatten.mp h
  rw [List.eq_of_mem_replicate hs] at h0
  exact hblank h0

theorem jsonEscape_noNul {s : Bytes} (h : (0 : UInt8) ∉ s) : (0 : UInt8) ∉ jsonEscape s := by
  have hdigit : ∀ d < 16, (0 : UInt8) ≠ digitByte d := by decide
  have hbyte : ∀ c : UInt8, c ≠ 0 → (0 : UInt8) ∉ jsonEscapeByte c := by
    intro c hc
    unfold jsonEscapeByte
    split_ifs with h1 h2 h3 h4 h5 h6
    · decide
    · decide
    · decide
    · decide
    · decide
    · have hlt : c.toNat < 32 := UInt8.lt_iff_toNat_lt.mp h6
      have hhead : (0 : UInt8) ∉ ascii "\\u00" := by decide
      simp [hhead, hdigit (c.toNat / 16) (by omega), hdigit (c.toNat % 16) (by omega)]
    · simpa using hc.symm
  have hquote : (0 : UInt8) ≠ ch '"' := by decide
  have hbody : (0 : UInt8) ∉ s.flatMap jsonEscapeByte := by
    intro h0
    obtain ⟨c, hc, h0⟩ := List.mem_flatMap.mp h0
    exact hbyte c (fun hzero => h (hzero ▸ hc)) h0
  simp [jsonEscape, hquote, hbody]

theorem stringMember_noNul {key : String} (hkey : (0 : UInt8) ∉ ascii key) {opt : Option Bytes}
    (h : ∀ s, opt = some s → (0 : UInt8) ∉ s) : ∀ x ∈ stringMember key opt, (0 : UInt8) ∉ x := by
  intro x hx
  obtain ⟨s, hs, rfl⟩ := List.mem_map.mp hx
  have hopen : (0 : UInt8) ∉ ascii "\"" := by decide
  have hclose : (0 : UInt8) ∉ ascii "\":" := by decide
  simp [hopen, hclose, hkey, jsonEscape_noNul (h s (Option.mem_toList.mp hs))]

theorem scalarMembers_noNul {s : GateScalars} (h : s.NoNul) (hlayer : s.LayerDefined) :
    ∀ x ∈ scalarMembers s, (0 : UInt8) ∉ x := by
  have hstr : ∀ opt ∈ [s.type, s.id, s.fieldKey, s.op, s.value, s.stableKey, s.subCategory,
      s.domain, s.entity], ∀ str, opt = some str → (0 : UInt8) ∉ str := by
    intro opt hopt str hsome
    exact h str (List.mem_filterMap.mpr ⟨opt, hopt, hsome⟩)
  have hdigits : ∀ d < 3, (0 : UInt8) ∉ ascii "\"layer\":" ++ decimal d := by decide
  have hcount : gateLayerCount = 3 := rfl
  have hlt := hlayer.2
  have hnum := hdigits s.layer.toNat (by omega)
  have hdefined : 0 ≤ s.layer ∧ s.layer < gateLayerCount := hlayer
  simp only [List.forall_mem_cons] at hstr
  obtain ⟨h1, h2, h3, h4, h5, h6, h7, h8, h9, -⟩ := hstr
  intro x hx
  rw [scalarMembers, if_pos hdefined] at hx
  simp only [List.mem_append, List.mem_singleton] at hx
  rcases hx with ((((((((hx | hx) | hx) | hx) | hx) | rfl) | hx) | hx) | hx) | hx
  · exact stringMember_noNul (by decide) h1 x hx
  · exact stringMember_noNul (by decide) h2 x hx
  · exact stringMember_noNul (by decide) h3 x hx
  · exact stringMember_noNul (by decide) h4 x hx
  · exact stringMember_noNul (by decide) h5 x hx
  · exact hnum
  · exact stringMember_noNul (by decide) h6 x hx
  · exact stringMember_noNul (by decide) h7 x hx
  · exact stringMember_noNul (by decide) h8 x hx
  · exact stringMember_noNul (by decide) h9 x hx

theorem arrayMember_noNul {key : String} (hkey : (0 : UInt8) ∉ ascii key) (indent : Nat)
    {xs : List Bytes} (h : ∀ x ∈ xs, (0 : UInt8) ∉ x) :
    ∀ x ∈ arrayMember indent key xs, (0 : UInt8) ∉ x := by
  have hitems : (0 : UInt8) ∉
      (ascii ",\n").intercalate (xs.map fun item => indentation (indent + 1 + 1) ++ item) := by
    apply intercalate_noNul (by decide)
    intro x hx
    obtain ⟨item, hitem, rfl⟩ := List.mem_map.mp hx
    simp [indentation_noNul, h item hitem]
  have hline : (0 : UInt8) ∉ ascii "\n" := by decide
  have hquote : (0 : UInt8) ∉ ascii "\"" := by decide
  have hcolon : (0 : UInt8) ∉ ascii "\":" := by decide
  have hopen : (0 : UInt8) ∉ ascii "[\n" := by decide
  have hclose : (0 : UInt8) ∉ ascii "]" := by decide
  intro x hx
  unfold arrayMember at hx
  split_ifs at hx
  · cases hx
  · rw [List.mem_singleton] at hx
    rw [hx]
    simp [arrayText, hline, hquote, hcolon, hopen, hclose, hkey, indentation_noNul, hitems]

mutual

theorem serializeNode_noNul (indent : Nat) : ∀ node : GateNode, node.Forall GateScalars.NoNul →
    node.Forall GateScalars.LayerDefined → (0 : UInt8) ∉ serializeNode indent node
  | .mk s children doNodes, h, hlayer => by
      have hscalars := scalarMembers_noNul h.1 hlayer.1
      have hchildren := arrayMember_noNul (show (0 : UInt8) ∉ ascii "children" by decide) indent
        (serializeNodes_noNul (indent + 2) children h.2.1 hlayer.2.1)
      have hdo := arrayMember_noNul (show (0 : UInt8) ∉ ascii "do" by decide) indent
        (serializeNodes_noNul (indent + 2) doNodes h.2.2 hlayer.2.2)
      have hopen : (0 : UInt8) ∉ ascii "\x7b" := by decide
      have hclose : (0 : UInt8) ∉ ascii "\x7d" := by decide
      have hall := intercalate_noNul (show (0 : UInt8) ∉ ascii "," by decide)
        (List.forall_mem_append.mpr ⟨List.forall_mem_append.mpr ⟨hscalars, hchildren⟩, hdo⟩)
      rw [serializeNode, objectText, List.mem_append, List.mem_append]
      exact not_or.mpr ⟨not_or.mpr ⟨hopen, hall⟩, hclose⟩

theorem serializeNodes_noNul (indent : Nat) : ∀ nodes : List GateNode,
    GateNode.ForallIn GateScalars.NoNul nodes → GateNode.ForallIn GateScalars.LayerDefined nodes →
    ∀ x ∈ serializeNodes indent nodes, (0 : UInt8) ∉ x
  | [], _, _ => by simp [serializeNodes]
  | n :: ns, h, hlayer => by
      rw [serializeNodes, List.forall_mem_cons]
      exact ⟨serializeNode_noNul indent n h.1 hlayer.1,
        serializeNodes_noNul indent ns h.2 hlayer.2⟩

end

theorem readBackByte_of_kept {c : UInt8} (h : KeptByte c) : readBackByte c = [c] := by
  unfold readBackByte
  rw [if_neg]
  rintro ⟨hlt, h10, h13, h9⟩
  rcases h with hge | rfl | rfl | rfl
  · exact absurd hlt (UInt8.not_lt.mpr hge)
  · exact h10 rfl
  · exact h13 rfl
  · exact h9 rfl

theorem length_readBackByte_of_not_kept {c : UInt8} (h : ¬KeptByte c) :
    (readBackByte c).length = 5 := by
  unfold KeptByte at h
  simp only [not_or] at h
  obtain ⟨hlow, h10, h13, h9⟩ := h
  unfold readBackByte
  rw [if_pos ⟨UInt8.not_le.mp hlow, h10, h13, h9⟩]
  rfl

theorem length_readBack_le (s : Bytes) : s.length ≤ (readBack s).length := by
  induction s with
  | nil => exact Nat.zero_le _
  | cons c s ih =>
      have hone : 1 ≤ (readBackByte c).length := by
        by_cases h : KeptByte c
        · rw [readBackByte_of_kept h]
          exact Nat.le_refl 1
        · rw [length_readBackByte_of_not_kept h]
          omega
      rw [readBack, List.flatMap_cons, List.length_append, List.length_cons]
      rw [readBack] at ih
      omega

/-- **Strings.**  A string comes back as it was if and only if all its bytes
are kept. -/
theorem readBack_eq_self_iff (s : Bytes) : readBack s = s ↔ ∀ c ∈ s, KeptByte c := by
  induction s with
  | nil => simp [readBack]
  | cons c s ih =>
      rw [readBack, List.flatMap_cons, List.forall_mem_cons, ← ih]
      by_cases h : KeptByte c
      · rw [readBackByte_of_kept h, List.singleton_append, List.cons.injEq]
        simp [h, readBack]
      · refine iff_of_false (fun heq => ?_) fun hkept => h hkept.1
        have hlen := congrArg List.length heq
        have hle := length_readBack_le s
        rw [List.length_append, length_readBackByte_of_not_kept h, List.length_cons] at hlen
        rw [readBack] at hle
        omega

theorem map_readBack_eq_self_iff (opt : Option Bytes) :
    opt.map readBack = opt ↔ ∀ str ∈ opt, ∀ c ∈ str, KeptByte c := by
  cases opt with
  | none => simp
  | some s => simp [readBack_eq_self_iff]

theorem scalars_readBack_iff (s : GateScalars) : s.readBack = s ↔ s.Kept := by
  have hkept : s.Kept ↔ ∀ opt ∈ [s.type, s.id, s.fieldKey, s.op, s.value, s.stableKey,
      s.subCategory, s.domain, s.entity], ∀ str ∈ opt, ∀ c ∈ str, KeptByte c := by
    constructor
    · intro h opt hopt str hstr
      exact h str (List.mem_filterMap.mpr ⟨opt, hopt, hstr⟩)
    · intro h str hstr
      obtain ⟨opt, hopt, hsome⟩ := List.mem_filterMap.mp hstr
      exact h opt hopt str hsome
  rw [hkept]
  simp only [List.forall_mem_cons, ← map_readBack_eq_self_iff]
  cases s
  simp [GateScalars.readBack]

mutual

theorem node_readBack_iff : ∀ node : GateNode,
    node.readBack = node ↔ node.Forall GateScalars.Kept
  | .mk s children doNodes => by
      rw [GateNode.readBack, GateNode.mk.injEq, scalars_readBack_iff, nodes_readBack_iff children,
        nodes_readBack_iff doNodes]
      rfl

theorem nodes_readBack_iff : ∀ nodes : List GateNode,
    GateNode.readBackAll nodes = nodes ↔ GateNode.ForallIn GateScalars.Kept nodes
  | [] => by simp [GateNode.readBackAll, GateNode.ForallIn]
  | n :: ns => by
      rw [GateNode.readBackAll, List.cons.injEq, node_readBack_iff n, nodes_readBack_iff ns]
      rfl

end

def rootText (root : GateNode) : Bytes := serializeNode 1 root ++ ascii "\n\x7d\n"

theorem gateChainToJson_eq (root : GateNode) (v : Bytes) :
    gateChainToJson { root := some root, version := some v } =
      ascii "\x7b\n  " ++ (ascii "\"" ++ ascii "version" ++ ascii "\":" ++
        ch '"' :: (v ++ ch '"' :: afterVersion (rootText root))) := by
  have h1 : ascii "\x7b\n  " = ascii "\x7b\n" ++ ascii "  " := rfl
  have h2 : ascii "  \"version\":\"" =
      ascii "  " ++ ascii "\"" ++ ascii "version" ++ ascii "\":" ++ [ch '"'] := rfl
  have h3 : ascii "\",\n" ++ ascii "  \"root\":" =
      [ch '"'] ++ bridge ++ [ch '"'] ++ ascii "root\":" := rfl
  calc gateChainToJson { root := some root, version := some v }
      = ascii "\x7b\n" ++ ascii "  \"version\":\"" ++ v ++
          (ascii "\",\n" ++ ascii "  \"root\":") ++ rootText root := by
        simp [gateChainToJson, rootText]
    _ = _ := by
        rw [h1, h2, h3]
        simp [afterVersion]

theorem json_noNul {root : GateNode} {v : Bytes} (hv : (0 : UInt8) ∉ v)
    (hroot : root.Forall GateScalars.NoNul) (hlayer : root.Forall GateScalars.LayerDefined) :
    (0 : UInt8) ∉ gateChainToJson { root := some root, version := some v } := by
  have hopen : (0 : UInt8) ∉ ascii "\x7b\n" := by decide
  have hkey : (0 : UInt8) ∉ ascii "  \"version\":\"" := by decide
  have hend : (0 : UInt8) ∉ ascii "\",\n" := by decide
  have hroot' : (0 : UInt8) ∉ ascii "  \"root\":" := by decide
  have hclose : (0 : UInt8) ∉ ascii "\n\x7d\n" := by decide
  simp [gateChainToJson, hopen, hkey, hv, hend, hroot', hclose,
    serializeNode_noNul 1 root hroot hlayer]

section

variable {ν : Type} {D : CNumber ν}

structure RootTokens (D : CNumber ν) (root : GateNode) (ts : List (Astok ν)) : Prop where
  quiet : Quiet ts
  parses : Parses D ts root.readBack
  reads : Reads D.toCDouble (lex D.toCDouble (afterVersion (rootText root)))
    (.comma :: .string (ascii "root") :: .colon :: (ts ++ [.rbrace, .eof]))

theorem exists_rootTokens (hD : StrtodSpec D) {root : GateNode}
    (hlayer : root.Forall GateScalars.LayerDefined) : ∃ ts, RootTokens D root ts := by
  obtain ⟨ts, -, hyields, hparses⟩ := nodeText_serializeNode hD 1 root hlayer
  refine ⟨ts, hyields.quiet, hparses, ?_⟩
  have hend : Reads D.toCDouble (lex D.toCDouble (ascii "\n\x7d\n")) [.rbrace, .eof] :=
    ⟨rfl, rfl, trivial⟩
  have hnode := hyields.reads _ _ hend
  have hplain : ∀ c ∈ ascii "root", c ≠ ch '"' ∧ c ≠ ch '\\' :=
    List.all_iff_forall_prop.mp (by decide)
  have hkey := reads_key hplain hnode
  have hcomma : Yields D.toCDouble (ascii ",") [.comma] :=
    yields_token rfl (by simp) fun _ => rfl
  have hline : Yields D.toCDouble (ascii "\n  ") [] :=
    yields_blank (List.all_iff_forall_prop.mp (by decide))
  have hall := (hcomma.append hline).reads _ _ hkey
  have htext : ascii "," ++ ascii "\n  " ++ (ascii "\"" ++ ascii "root" ++ ascii "\":" ++
      (serializeNode 1 root ++ ascii "\n\x7d\n")) = afterVersion (rootText root) := by
    have hsep : bridge = ascii "," ++ ascii "\n  " := rfl
    have hname : ch '"' :: ascii "root\":" = ascii "\"" ++ ascii "root" ++ ascii "\":" := rfl
    rw [afterVersion, rootText, hsep, ← List.cons_append, hname]
  rw [htext] at hall
  exact hall

def atVersion (root : GateNode) (v : Bytes) : Asparse ν :=
  ⟨.string (ascii "version"), ch ':' :: (ch '"' :: v ++ ch '"' :: afterVersion (rootText root))⟩

theorem lex_json (root : GateNode) (v : Bytes) :
    (lex D.toCDouble (gateChainToJson { root := some root, version := some v })).tok = .lbrace ∧
      asparseAdvance D.toCDouble
        (lex D.toCDouble (gateChainToJson { root := some root, version := some v })) =
          atVersion root v := by
  have hplain : ∀ c ∈ ascii "version", c ≠ ch '"' ∧ c ≠ ch '\\' :=
    List.all_iff_forall_prop.mp (by decide)
  have hblank : ∀ c ∈ ascii "\n  ", isBlank c = true := List.all_iff_forall_prop.mp (by decide)
  rw [gateChainToJson_eq]
  refine ⟨rfl, ?_⟩
  show lex D.toCDouble (ascii "\n  " ++ (ascii "\"" ++ ascii "version" ++ ascii "\":" ++
    ch '"' :: (v ++ ch '"' :: afterVersion (rootText root)))) = _
  rw [lex, List.dropWhile_append_of_pos hblank]
  show lex D.toCDouble (ch '"' :: (ascii "version" ++ ch '"' :: (ch ':' ::
    ch '"' :: (v ++ ch '"' :: afterVersion (rootText root))))) = _
  rw [lex_string (scanString_plain hplain _)]
  rfl

theorem parseChain_turn {n : Nat} {p p' : Asparse ν} {key : Bytes} {chain chain' : GateChain}
    (hkey : p.tok = .string key) (hcolon : (asparseAdvance D.toCDouble p).tok = .colon)
    (hvalue : parseChainValue D n key (asparseAdvance D.toCDouble (asparseAdvance D.toCDouble p))
      chain = some (chain', p')) :
    parseChain D (n + 1) p chain = parseChain D n (skipComma D.toCDouble p') chain' := by
  simp [parseChain, hkey, hcolon, hvalue, Astok.isColon]

/-- **A plain version.**  The chain comes back with its version and with its
strings as they are read back. -/
theorem fromJson_of_plain (hD : StrtodSpec D) {root : GateNode} {v : Bytes}
    (hv : (0 : UInt8) ∉ v) (hroot : root.Forall GateScalars.NoNul)
    (hlayer : root.Forall GateScalars.LayerDefined) (hquote : ch '"' ∉ v) (hslash : ch '\\' ∉ v) :
    ∃ n, ∀ fuel, n ≤ fuel →
      gateChainFromJson D fuel (gateChainToJson { root := some root, version := some v }) =
        some (some { root := some root.readBack, version := some v }) := by
  obtain ⟨ts, htokens⟩ := exists_rootTokens hD hlayer
  obtain ⟨hbrace, hfirst⟩ := lex_json (D := D) root v
  have hplain : ∀ c ∈ v, c ≠ ch '"' ∧ c ≠ ch '\\' :=
    fun c hc => ⟨fun h => hquote (h ▸ hc), fun h => hslash (h ▸ hc)⟩
  have hval : lex D.toCDouble (ch '"' :: v ++ ch '"' :: afterVersion (rootText root)) =
      ⟨.string v, afterVersion (rootText root)⟩ :=
    lex_string (scanString_plain hplain _)
  refine ⟨ts.length + 3, fun fuel hfuel => ?_⟩
  obtain ⟨k, rfl⟩ : ∃ k, fuel = ts.length + k + 3 := ⟨fuel - ts.length - 3, by omega⟩
  rw [gateChainFromJson, cstr_eq_self (json_noNul hv hroot hlayer), hbrace, hfirst]
  simp only [Astok.isLbrace, Bool.true_eq_false, if_false]
  obtain ⟨hcomma, hkey, hcolon, hreads⟩ := htokens.reads
  obtain ⟨hnode, p', hreads', hparse⟩ := htokens.parses (ts.length + k + 1) _ _ (by omega) hreads
  have hversion : parseChainValue D (ts.length + k + 2) (ascii "version")
      (asparseAdvance D.toCDouble (asparseAdvance D.toCDouble (atVersion root v))) {} =
      some ({ version := some v }, lex D.toCDouble (afterVersion (rootText root))) := by
    show parseChainValue D _ _ (lex D.toCDouble (ch '"' :: v ++ ch '"' :: _)) {} = _
    rw [hval, parseChainValue, if_pos rfl]
    rfl
  have hroot' : parseChainValue D (ts.length + k + 1) (ascii "root")
      (asparseAdvance D.toCDouble (asparseAdvance D.toCDouble
        (asparseAdvance D.toCDouble (lex D.toCDouble (afterVersion (rootText root))))))
      { version := some v } = some ({ root := some root.readBack, version := some v }, p') := by
    rw [parseChainValue, if_neg (by decide), if_pos rfl, hnode, hparse]
    rfl
  rw [parseChain_turn rfl rfl hversion, skipComma_of_comma hcomma,
    parseChain_turn hkey hcolon hroot', skipComma_of_rbrace hreads'.1, parseChain, hreads'.1]

/-- **A version with a quote or a backslash.**  No fuel reads it back. -/
theorem version_lost (hD : StrtodSpec D) {root : GateNode} {v : Bytes}
    (hv : (0 : UInt8) ∉ v) (hroot : root.Forall GateScalars.NoNul)
    (hlayer : root.Forall GateScalars.LayerDefined) (hmark : ch '"' ∈ v ∨ ch '\\' ∈ v)
    (fuel : Nat) (chain : GateChain) (hversion : chain.version = some v) :
    gateChainFromJson D fuel (gateChainToJson { root := some root, version := some v }) ≠
      some (some chain) := by
  obtain ⟨ts, htokens⟩ := exists_rootTokens hD hlayer
  obtain ⟨hbrace, hfirst⟩ := lex_json (D := D) root v
  have hbody : NoneAhead D.toCDouble (lex D.toCDouble (afterVersion (rootText root))) := by
    let after : List (Astok ν) := .comma :: .string (ascii "root") :: .colon :: (ts ++ [.rbrace])
    refine noneAhead_of_reads (show (after ++ [Astok.eof]).IsChain NoVersion from ?_) ?_
    · have hquiet := (Quiet.single (ν := ν) (t := .comma) (by simp)).append
        ((htokens.quiet.append ((Quiet.single (t := .rbrace) (by simp)).append
          (Quiet.single (t := .eof) (by simp)))).keyed
            (show ascii "root" ≠ ascii "version" by decide))
      simpa [after] using hquiet.chain
    · simpa [after] using htokens.reads
  obtain ⟨val, left, hscan, -⟩ := scan_across v (rootText root)
  have hval : lex D.toCDouble (ch '"' :: v ++ ch '"' :: afterVersion (rootText root)) =
      ⟨.string val, left⟩ := lex_string hscan
  have hne : val ≠ v := scan_ne_self v 0 hscan (Or.inr hmark)
  rw [gateChainFromJson, cstr_eq_self (json_noNul hv hroot hlayer), hbrace, hfirst]
  simp only [Astok.isLbrace, Bool.true_eq_false, if_false]
  intro hparse
  rcases version_of_parseChain hparse with hsame | ⟨q, w, hahead, hset, hw⟩
  · -- the initial version has no mark
    rw [hversion, Option.some.injEq] at hsame
    rw [hsame] at hmark
    exact absurd hmark (by decide)
  · rw [hversion, Option.some.injEq] at hw
    subst hw
    have hthird : asparseAdvance D.toCDouble (asparseAdvance D.toCDouble (atVersion root v)) =
        ⟨.string val, left⟩ := hval
    rcases hahead.cases_head with rfl | hahead
    · have hstring := hset.2.2
      rw [hthird] at hstring
      exact hne (Astok.string.inj hstring)
    rcases hahead.cases_head with rfl | hahead
    · have hkey := hset.1
      cases hkey
    · have hshort := later_version_short (b := ch '"' :: v) hD hbody hahead hset
      rw [List.length_cons] at hshort
      omega

/-- **The round trip of a chain.**  A chain of C strings and defined layers
comes back as it was if and only if the strings of its nodes have no control
bytes but line feeds, carriage returns and tabs, and its version has neither a
quote nor a backslash. -/
theorem json_round_trip_iff (hD : StrtodSpec D) (root : GateNode) (v : Bytes)
    (hv : (0 : UInt8) ∉ v) (hroot : root.Forall GateScalars.NoNul)
    (hlayer : root.Forall GateScalars.LayerDefined) :
    GateChain.RoundTrips D { root := some root, version := some v } ↔
      root.Forall GateScalars.Kept ∧ ch '"' ∉ v ∧ ch '\\' ∉ v := by
  by_cases hmark : ch '"' ∈ v ∨ ch '\\' ∈ v
  · refine iff_of_false ?_ fun h => hmark.elim h.2.1 h.2.2
    rintro ⟨n, hn⟩
    exact version_lost hD hv hroot hlayer hmark n _ rfl (hn n (Nat.le_refl n))
  · rw [not_or] at hmark
    obtain ⟨n, hn⟩ := fromJson_of_plain hD hv hroot hlayer hmark.1 hmark.2
    rw [← node_readBack_iff]
    constructor
    · rintro ⟨n', hn'⟩
      have heq := (hn (max n n') (Nat.le_max_left n n')).symm.trans
        (hn' (max n n') (Nat.le_max_right n n'))
      simp only [Option.some.injEq, GateChain.mk.injEq, and_true] at heq
      exact ⟨heq, hmark.1, hmark.2⟩
    · rintro ⟨heq, -, -⟩
      rw [heq] at hn
      exact ⟨n, hn⟩

end

def naturals : CNumber Int where
  strtod s :=
    let digits := digitsPrefix 10 s
    (digits.foldl (fun acc d => acc * 10 + d) 0, digits.length)
  formatG n := decimal n.toNat
  lt a b := a < b
  le a b := a ≤ b
  toInt n := n

theorem quote_not_in_digits (s : Bytes) : ch '"' ∉ s.take (digitsPrefix 10 s).length := by
  induction s with
  | nil => simp
  | cons c s ih =>
      rw [digitsPrefix]
      cases hc : digitValue 10 c with
      | none => simp
      | some d =>
          have hne : ch '"' ≠ c := by
            rintro rfl
            have hquote : digitValue 10 (ch '"') = none := by decide
            rw [hquote] at hc
            cases hc
          simpa [hne] using ih

theorem naturals_spec : StrtodSpec naturals where
  digit := by
    intro d hd c hc rest
    have hnone : ∀ c ∈ ascii ",\x7d", digitValue 10 c = none :=
      List.all_iff_forall_prop.mp (by decide)
    have hdigit := digitValue_digitByte (show 10 ≤ 16 by omega) hd
    simp [naturals, digitsPrefix, hdigit, hnone c hc]
  toInt := by
    intro d hd
    have hdigit := digitValue_digitByte (show 10 ≤ 16 by omega) hd
    simp [naturals, digitsPrefix, hdigit]
  noQuote s := quote_not_in_digits s

def sampleRoot : GateNode :=
  .mk { type := some (ascii "bs_logic_and"), layer := 1 }
    [.mk { type := some (ascii "bs_condition"), value := some (ascii "a\"b\n"), layer := 2 } [] []]
    [.mk {} [] []]

theorem json_round_trip_sample :
    GateChain.RoundTrips naturals { root := some sampleRoot, version := some (ascii "1.0") } := by
  have hkept : sampleRoot.Forall GateScalars.Kept := by
    simp [sampleRoot, GateNode.Forall, GateNode.ForallIn, GateScalars.Kept, GateScalars.strings]
    exact ⟨List.all_iff_forall_prop.mp (by decide), List.all_iff_forall_prop.mp (by decide),
      List.all_iff_forall_prop.mp (by decide)⟩
  refine (json_round_trip_iff naturals_spec sampleRoot (ascii "1.0") (by decide) ?_ ?_).mpr
    ⟨hkept, by decide, by decide⟩
  · simp [sampleRoot, GateNode.Forall, GateNode.ForallIn, GateScalars.NoNul, GateScalars.strings]
    decide
  · simp [sampleRoot, GateNode.Forall, GateNode.ForallIn, GateScalars.LayerDefined, gateLayerCount,
      gateLayerDefault]

def controlRoot : GateNode := .mk { type := some (ascii "bs_condition"), value := some [1] } [] []

/-- The byte 1 comes back as `u0001`; a version with a quote is cut there. -/
theorem json_round_trip_fails :
    ¬GateChain.RoundTrips naturals { root := some controlRoot, version := some (ascii "1.0") } ∧
      ¬GateChain.RoundTrips naturals
        { root := some (.mk {} [] []), version := some (ascii "1\"0") } := by
  have hlayer : controlRoot.Forall GateScalars.LayerDefined := by
    simp [controlRoot, GateNode.Forall, GateNode.ForallIn, GateScalars.LayerDefined, gateLayerCount,
      gateLayerDefault]
  have hnul : controlRoot.Forall GateScalars.NoNul := by
    simp [controlRoot, GateNode.Forall, GateNode.ForallIn, GateScalars.NoNul, GateScalars.strings]
    decide
  constructor
  · rintro ⟨n, hn⟩
    obtain ⟨n', hn'⟩ := fromJson_of_plain naturals_spec (v := ascii "1.0") (by decide) hnul hlayer
      (by decide) (by decide)
    have heq := (hn' (max n n') (Nat.le_max_right n n')).symm.trans
      (hn (max n n') (Nat.le_max_left n n'))
    simp [controlRoot, GateNode.readBack, GateNode.readBackAll, GateScalars.readBack, readBack,
      readBackByte] at heq
    exact absurd heq.2 (by decide)
  · rintro ⟨n, hn⟩
    refine version_lost naturals_spec (by decide) ?_ ?_ (Or.inl (by decide)) n _ rfl
      (hn n (Nat.le_refl n))
    · simp [GateNode.Forall, GateNode.ForallIn, GateScalars.NoNul, GateScalars.strings]
    · simp [GateNode.Forall, GateNode.ForallIn, GateScalars.LayerDefined, gateLayerCount,
        gateLayerDefault]

/-- A cut of the text that loses a byte that is not blank is not accepted. -/
def CutsRefused {ν : Type} (D : CNumber ν) (chain : GateChain) : Prop :=
  ∀ cut lost, cut ++ lost = gateChainToJson chain → (∃ c ∈ lost, isBlank c = false) →
    ∀ fuel read, gateChainFromJson D fuel cut ≠ some (some read)

theorem fromJson_brace {ν : Type} (D : CNumber ν) (fuel : Nat) :
    gateChainFromJson D (fuel + 1) (ascii "\x7b") = some (some {}) := rfl

theorem brace_of_toJson (chain : GateChain) :
    ∃ lost, ascii "\x7b" ++ lost = gateChainToJson chain ∧ ∃ c ∈ lost, isBlank c = false := by
  have hopen : ascii "\x7b\n" = ascii "\x7b" ++ ascii "\n" := rfl
  have hclose : ch '\x7d' ∈ ascii "\n\x7d\n" := by decide
  unfold gateChainToJson
  rw [hopen]
  simp only [List.append_assoc]
  refine ⟨_, rfl, ch '\x7d', ?_, rfl⟩
  iterate 6 apply List.mem_append_right
  exact hclose

def twoGates : GateChain :=
  { root := some (.mk { type := some (ascii "bs_logic_and") }
      [.mk { id := some (ascii "a") } [] [], .mk { id := some (ascii "b") } [] []] []) }

end Proofs.JsonRoundTrip

end BlessStar.Gate
