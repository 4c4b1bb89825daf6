import Mathlib.Data.List.Chain
import BlessStar.Gate.Json
import BlessStar.Gate.Proofs.Compilation

/-!
# Reading a serialized node

The parser, standing at the text of a node, returns that node with its strings
as the tokenizer gives them back, and stands behind the text.
-/

namespace BlessStar.Gate

open Lib.ByteString

/-- What the tokenizer makes of an escaped byte: it knows no `\u`. -/
def readBackByte (c : UInt8) : Bytes :=
  if c < 32 ∧ c ≠ 10 ∧ c ≠ 13 ∧ c ≠ 9 then
    ascii "u00" ++ [digitByte (c.toNat / 16), digitByte (c.toNat % 16)]
  else [c]

def readBack (s : Bytes) : Bytes := s.flatMap readBackByte

def GateScalars.readBack (s : GateScalars) : GateScalars where
  type := s.type.map Gate.readBack
  id := s.id.map Gate.readBack
  fieldKey := s.fieldKey.map Gate.readBack
  op := s.op.map Gate.readBack
  value := s.value.map Gate.readBack
  stableKey := s.stableKey.map Gate.readBack
  layer := s.layer
  subCategory := s.subCategory.map Gate.readBack
  domain := s.domain.map Gate.readBack
  entity := s.entity.map Gate.readBack

mutual

def GateNode.readBack : GateNode → GateNode
  | .mk s children doNodes =>
      .mk s.readBack (GateNode.readBackAll children) (GateNode.readBackAll doNodes)

def GateNode.readBackAll : List GateNode → List GateNode
  | [] => []
  | n :: ns => n.readBack :: GateNode.readBackAll ns

end

mutual

/-- All nodes of the tree have scalar fields with `P`. -/
def GateNode.Forall (P : GateScalars → Prop) : GateNode → Prop
  | .mk s children doNodes =>
      P s ∧ GateNode.ForallIn P children ∧ GateNode.ForallIn P doNodes

def GateNode.ForallIn (P : GateScalars → Prop) : List GateNode → Prop
  | [] => True
  | n :: ns => n.Forall P ∧ GateNode.ForallIn P ns

end

/-- One of the layers of `bs_gate_layer_t`. -/
def GateScalars.LayerDefined (s : GateScalars) : Prop := 0 ≤ s.layer ∧ s.layer < gateLayerCount

/-- What the parser relies on `strtod` for, in the C locale: a digit before a
comma or a closing brace is a number by itself, and no number has a quote. -/
structure StrtodSpec {ν : Type} (D : CNumber ν) : Prop where
  digit : ∀ d < 10, ∀ c ∈ ascii ",\x7d", ∀ rest,
    D.strtod (digitByte d :: c :: rest) = ((D.strtod [digitByte d]).1, 1)
  toInt : ∀ d < 10, D.toInt (D.strtod [digitByte d]).1 = d
  noQuote : ∀ s : Bytes, ch '"' ∉ s.take (D.strtod s).2

namespace Proofs.JsonReading

open TokenReading Compilation

theorem scanString_escapeByte (c : UInt8) (rest : Bytes) :
    scanString (jsonEscapeByte c ++ rest) =
      (scanString rest).map fun r => (readBackByte c ++ r.1, r.2) := by
  by_cases hquote : c = ch '"'
  · subst hquote
    exact scanString_escape _ _
  by_cases hslash : c = ch '\\'
  · subst hslash
    exact scanString_escape _ _
  by_cases h10 : c = 10
  · subst h10
    exact scanString_escape _ _
  by_cases h13 : c = 13
  · subst h13
    exact scanString_escape _ _
  by_cases h9 : c = 9
  · subst h9
    exact scanString_escape _ _
  rw [jsonEscapeByte, if_neg hquote, if_neg hslash, if_neg h10, if_neg h13, if_neg h9, readBackByte]
  by_cases hlow : c < 32
  · -- five plain bytes after the backslash, the first of them taken for itself
    have hdigit : ∀ d < 16, digitByte d ≠ ch '"' ∧ digitByte d ≠ ch '\\' := by decide
    have hc : c.toNat < 32 := UInt8.lt_iff_toNat_lt.mp hlow
    obtain ⟨hq, hs⟩ := hdigit (c.toNat / 16) (by omega)
    obtain ⟨hq', hs'⟩ := hdigit (c.toNat % 16) (by omega)
    rw [if_pos hlow, if_pos ⟨hlow, h10, h13, h9⟩]
    show scanString (ch '\\' :: ch 'u' :: ch '0' :: ch '0' :: _ :: _ :: rest) = _
    rw [scanString_escape, scanString_raw (by decide) (by decide),
      scanString_raw (by decide) (by decide), scanString_raw hq hs, scanString_raw hq' hs']
    simp only [Option.map_map]
    rfl
  · rw [if_neg hlow, if_neg fun h => hlow h.1]
    exact scanString_raw hquote hslash rest

theorem scanString_jsonEscape (s rest : Bytes) :
    scanString (s.flatMap jsonEscapeByte ++ ch '"' :: rest) = some (readBack s, rest) := by
  induction s with
  | nil => exact scanString_quote rest
  | cons c s ih =>
      rw [List.flatMap_cons, List.append_assoc, scanString_escapeByte, ih]
      rfl

section

variable {ν : Type}

/-- No key `version` begins at the first of the two tokens. -/
def NoVersion (t u : Astok ν) : Prop := ¬(t = .string (ascii "version") ∧ u = .colon)

/-- Tokens among which there is no key `version`, also where they follow
others. -/
structure Quiet (ts : List (Astok ν)) : Prop where
  chain : ts.IsChain NoVersion
  head : ∀ t ∈ ts.head?, t ≠ .colon

theorem Quiet.nil : Quiet ([] : List (Astok ν)) := ⟨.nil, by simp⟩

theorem Quiet.append {ts us : List (Astok ν)} (ht : Quiet ts) (hu : Quiet us) :
    Quiet (ts ++ us) := by
  refine ⟨ht.chain.append hu.chain fun x _ y hy h => hu.head y hy h.2, ?_⟩
  cases ts with
  | nil => exact hu.head
  | cons t ts => exact ht.head

theorem Quiet.single {t : Astok ν} (h : t ≠ .colon) : Quiet [t] :=
  ⟨.singleton t, by simpa using h⟩

theorem Quiet.keyed {key : Bytes} {ts : List (Astok ν)} (hkey : key ≠ ascii "version")
    (h : Quiet ts) : Quiet (.string key :: .colon :: ts) := by
  refine ⟨?_, by simp⟩
  have hcolon : (Astok.colon :: ts).IsChain NoVersion := h.chain.cons fun y _ hy => nomatch hy.1
  refine hcolon.cons fun y _ hy => hkey ?_
  simpa using hy.1

variable (D : CDouble ν)

structure Yields (x : Bytes) (ts : List (Astok ν)) : Prop where
  quiet : Quiet ts
  reads : ∀ rest us, Reads D (lex D rest) us → Reads D (lex D (x ++ rest)) (ts ++ us)

structure YieldsMember (x : Bytes) (ts : List (Astok ν)) : Prop where
  quiet : Quiet ts
  reads : ∀ c ∈ ascii ",\x7d", ∀ rest us, Reads D (lex D (c :: rest)) us →
    Reads D (lex D (x ++ c :: rest)) (ts ++ us)

variable {D}

theorem Yields.member {x : Bytes} {ts : List (Astok ν)} (h : Yields D x ts) :
    YieldsMember D x ts :=
  ⟨h.quiet, fun _ _ _ us hus => h.reads _ us hus⟩

theorem Yields.append {x y : Bytes} {ts us : List (Astok ν)} (hx : Yields D x ts)
    (hy : Yields D y us) : Yields D (x ++ y) (ts ++ us) := by
  refine ⟨hx.quiet.append hy.quiet, fun rest vs hvs => ?_⟩
  rw [List.append_assoc, List.append_assoc]
  exact hx.reads _ _ (hy.reads _ _ hvs)

theorem yields_blank {ws : Bytes} (h : ∀ c ∈ ws, isBlank c = true) : Yields D ws [] := by
  refine ⟨.nil, fun rest us hus => ?_⟩
  rw [lex, List.dropWhile_append_of_pos h]
  exact hus

theorem yields_token {c : UInt8} {x : Bytes} {tok : Astok ν} (hblank : isBlank c = false)
    (hquiet : tok ≠ .colon) (h : ∀ rest, lexToken D c (x ++ rest) = ⟨tok, rest⟩) :
    Yields D (c :: x) [tok] := by
  refine ⟨.single hquiet, fun rest us hus => ?_⟩
  rw [lex, List.cons_append, List.dropWhile_cons_of_neg (by simp [hblank])]
  simp only [h]
  exact ⟨rfl, hus⟩

theorem yields_string (s : Bytes) : Yields D (jsonEscape s) [.string (readBack s)] := by
  refine yields_token rfl (by simp) fun rest => ?_
  rw [List.append_assoc]
  have hscan := scanString_jsonEscape s rest
  have h1 : ch '"' ≠ ch '\x7b' ∧ ch '"' ≠ ch '\x7d' ∧ ch '"' ≠ ch '[' ∧ ch '"' ≠ ch ']' ∧
      ch '"' ≠ ch ',' ∧ ch '"' ≠ ch ':' := by decide
  simp [lexToken, h1, hscan]

def keyText (key : String) : Bytes := ascii "\"" ++ ascii key ++ ascii "\":"

abbrev PlainKey (key : String) : Prop :=
  ascii key ≠ ascii "version" ∧ (ascii key).all fun c => c ≠ ch '"' ∧ c ≠ ch '\\'

theorem PlainKey.plain {key : String} (h : PlainKey key) :
    ∀ c ∈ ascii key, c ≠ ch '"' ∧ c ≠ ch '\\' := by
  intro c hc
  simpa using List.all_eq_true.mp h.2 c hc

theorem scanString_plain {s : Bytes} (h : ∀ c ∈ s, c ≠ ch '"' ∧ c ≠ ch '\\') (rest : Bytes) :
    scanString (s ++ ch '"' :: rest) = some (s, rest) := by
  induction s with
  | nil => exact scanString_quote rest
  | cons c s ih =>
      rw [List.forall_mem_cons] at h
      rw [List.cons_append, scanString_raw h.1.1 h.1.2, ih h.2]
      rfl

theorem lex_string {s t rest : Bytes} (h : scanString s = some (t, rest)) :
    lex D (ch '"' :: s) = ⟨.string t, rest⟩ := by
  have hblank : isBlank (ch '"') = false := rfl
  have h1 : ch '"' ≠ ch '\x7b' ∧ ch '"' ≠ ch '\x7d' ∧ ch '"' ≠ ch '[' ∧ ch '"' ≠ ch ']' ∧
      ch '"' ≠ ch ',' ∧ ch '"' ≠ ch ':' := by decide
  simp [lex, hblank, lexToken, h1, h]

theorem reads_key {key : Bytes} (hkey : ∀ c ∈ key, c ≠ ch '"' ∧ c ≠ ch '\\') {x : Bytes}
    {ts : List (Astok ν)} (h : Reads D (lex D x) ts) :
    Reads D (lex D (ascii "\"" ++ key ++ ascii "\":" ++ x)) (.string key :: .colon :: ts) := by
  have hshape : ascii "\"" ++ key ++ ascii "\":" ++ x =
      ch '"' :: (key ++ ch '"' :: (ch ':' :: x)) := by
    have hopen : ascii "\"" = [ch '"'] := rfl
    have hclose : ascii "\":" = [ch '"', ch ':'] := rfl
    simp [hopen, hclose]
  rw [hshape, lex_string (scanString_plain hkey _)]
  exact ⟨rfl, rfl, h⟩

theorem Yields.keyed {key : String} (hkey : PlainKey key) {x : Bytes} {ts : List (Astok ν)}
    (h : Yields D x ts) : Yields D (keyText key ++ x) (.string (ascii key) :: .colon :: ts) := by
  refine ⟨h.quiet.keyed hkey.1, fun rest us hus => ?_⟩
  rw [List.append_assoc]
  exact reads_key hkey.plain (h.reads _ _ hus)

theorem YieldsMember.keyed {key : String} (hkey : PlainKey key) {x : Bytes} {ts : List (Astok ν)}
    (h : YieldsMember D x ts) :
    YieldsMember D (keyText key ++ x) (.string (ascii key) :: .colon :: ts) := by
  refine ⟨h.quiet.keyed hkey.1, fun c hc rest us hus => ?_⟩
  rw [List.append_assoc]
  exact reads_key hkey.plain (h.reads c hc _ _ hus)

end

section

variable {ν : Type} {D : CNumber ν}

/-- Reading these tokens in an object changes the node by `u`. -/
def Sets (D : CNumber ν) (m : List (Astok ν)) (u : GateNode → GateNode) : Prop :=
  0 < m.length ∧ ∀ n p node us, m.length ≤ n → Reads D.toCDouble p (m ++ us) →
    ∃ p', Reads D.toCDouble p' us ∧
      parseMembers D (n + 1) p node = parseMembers D n (skipComma D.toCDouble p') (u node)

/-- The text of a member that changes the node by `u`. -/
def Member (D : CNumber ν) (x : Bytes) (u : GateNode → GateNode) : Prop :=
  ∃ ts, YieldsMember D.toCDouble x ts ∧ Sets D ts u

/-- The texts of members that together change the node by `u`. -/
def Members (D : CNumber ν) (xs : List Bytes) (u : GateNode → GateNode) : Prop :=
  ∃ us, List.Forall₂ (Member D) xs us ∧ ∀ node, us.foldl (fun node f => f node) node = u node

theorem Members.nil : Members D [] id := ⟨[], .nil, fun _ => rfl⟩

theorem Members.single {x : Bytes} {u : GateNode → GateNode} (h : Member D x u) :
    Members D [x] u :=
  ⟨[u], .cons h .nil, fun _ => rfl⟩

theorem Members.append {xs ys : List Bytes} {u w : GateNode → GateNode} (hx : Members D xs u)
    (hy : Members D ys w) : Members D (xs ++ ys) (w ∘ u) := by
  obtain ⟨us, hus, hu⟩ := hx
  obtain ⟨ws, hws, hw⟩ := hy
  refine ⟨us ++ ws, List.rel_append hus hws, fun node => ?_⟩
  rw [List.foldl_append, hu, hw]
  rfl

def onScalars (w : GateScalars → GateScalars) (node : GateNode) : GateNode :=
  .mk (w node.scalars) node.children node.doNodes

theorem sets_scalar {key : Bytes} {val : Astok ν} {w : GateScalars → GateScalars}
    (h : ∀ s, setScalar D key val s = some (w s)) :
    Sets D [.string key, .colon, val] (onScalars w) := by
  refine ⟨by simp, fun n p node us _ hreads => ?_⟩
  obtain ⟨hkey, hcolon, hval, hrest⟩ := hreads
  refine ⟨_, hrest, ?_⟩
  simp [parseMembers, hkey, hcolon, hval, h, Astok.isColon, onScalars]

theorem members_string {key : String} (hkey : PlainKey key) (opt : Option Bytes)
    (set : Option Bytes → GateScalars → GateScalars) (hnone : ∀ s, set none s = s)
    (hsome : ∀ v s, setScalar D (ascii key) (.string v) s = some (set (some v) s)) :
    Members D (stringMember key opt) (onScalars (set (opt.map Gate.readBack))) := by
  cases opt with
  | none =>
      refine ⟨[], .nil, fun node => ?_⟩
      cases node
      simp [onScalars, hnone, GateNode.scalars, GateNode.children, GateNode.doNodes]
  | some v =>
      apply Members.single
      exact ⟨_, (yields_string v).member.keyed hkey, sets_scalar (hsome _)⟩

theorem lex_digit {d : Nat} (hd : d < 10) (rest : Bytes) :
    lex D.toCDouble (digitByte d :: rest) =
      if 0 < (D.strtod (digitByte d :: rest)).2 then
        ⟨.number (D.strtod (digitByte d :: rest)).1,
          (digitByte d :: rest).drop (D.strtod (digitByte d :: rest)).2⟩
      else ⟨.error, digitByte d :: rest⟩ := by
  have hdigit : ∀ d < 10, isBlank (digitByte d) = false ∧
      ch '0' ≤ digitByte d ∧ digitByte d ≤ ch '9' ∧
      (ascii "\x7b\x7d[],:\"tfn").all (fun c => digitByte d ≠ c) := by decide
  obtain ⟨hblank, hlow, hhigh, hother⟩ := hdigit d hd
  have hne : ∀ c ∈ ascii "\x7b\x7d[],:\"tfn", digitByte d ≠ c := by
    simpa using hother
  have hword : ∀ (n : Nat) (c : UInt8) (w : Bytes), c ∈ ascii "\x7b\x7d[],:\"tfn" →
      (digitByte d :: rest).take (n + 1) ≠ c :: w := by
    intro n c w hc heq
    rw [List.take_succ_cons] at heq
    exact hne c hc (List.cons.inj heq).1
  have htrue : (digitByte d :: rest).take 4 ≠ ascii "true" :=
    hword 3 (ch 't') (ascii "rue") (by decide)
  have hfalse : (digitByte d :: rest).take 5 ≠ ascii "false" :=
    hword 4 (ch 'f') (ascii "alse") (by decide)
  have hnull : (digitByte d :: rest).take 4 ≠ ascii "null" :=
    hword 3 (ch 'n') (ascii "ull") (by decide)
  rw [lex, List.dropWhile_cons_of_neg (by simp [hblank])]
  simp only [lexToken]
  rw [if_neg (hne _ (by decide)), if_neg (hne _ (by decide)), if_neg (hne _ (by decide)),
    if_neg (hne _ (by decide)), if_neg (hne _ (by decide)), if_neg (hne _ (by decide)),
    if_neg (hne _ (by decide)), if_neg htrue, if_neg hfalse, if_neg hnull,
    if_pos (Or.inr ⟨hlow, hhigh⟩)]

theorem members_layer (hD : StrtodSpec D) {layer : Int} (h0 : 0 ≤ layer)
    (hlt : layer < gateLayerCount) :
    Members D [ascii "\"layer\":" ++ decimal layer.toNat]
      (onScalars fun s => { s with layer := layer }) := by
  have hcount : gateLayerCount = 3 := rfl
  have hsmall : layer.toNat < 10 := by omega
  have hdigits : ∀ d < 10, decimal d = [digitByte d] := by decide
  apply Members.single
  refine ⟨[.string (ascii "layer"), .colon, .number (D.strtod [digitByte layer.toNat]).1], ?_, ?_⟩
  · have hkey : PlainKey "layer" := by decide
    have hnum : YieldsMember D.toCDouble (decimal layer.toNat)
        [.number (D.strtod [digitByte layer.toNat]).1] := by
      refine ⟨.single (by simp), fun c hc rest us hus => ?_⟩
      rw [hdigits _ hsmall]
      show Reads D.toCDouble (lex D.toCDouble (digitByte layer.toNat :: c :: rest)) _
      rw [lex_digit hsmall, hD.digit layer.toNat hsmall c hc rest]
      exact ⟨rfl, hus⟩
    exact hnum.keyed hkey
  · apply sets_scalar
    intro s
    have hcast : ((layer.toNat : Nat) : Int) = layer := Int.toNat_of_nonneg h0
    simp [setScalar, hD.toInt _ hsmall, hcast]

def Parses (D : CNumber ν) (ts : List (Astok ν)) (node : GateNode) : Prop :=
  ∀ n p us, ts.length ≤ n → Reads D.toCDouble p (ts ++ us) →
    p.tok = .lbrace ∧ ∃ p', Reads D.toCDouble p' us ∧ parseNode D n p = some (node, p')

def NodeText (D : CNumber ν) (x : Bytes) (node : GateNode) : Prop :=
  ∃ ts, 0 < ts.length ∧ Yields D.toCDouble x ts ∧ Parses D ts node

theorem join_members {xs : List Bytes} {ws : List (GateNode → GateNode)}
    (h : List.Forall₂ (Member D) xs ws) :
    ∃ ts, Yields D.toCDouble ((ascii ",").intercalate xs ++ ascii "\x7d") (ts ++ [.rbrace]) ∧
      ∀ n p node us, ts.length < n → Reads D.toCDouble p (ts ++ .rbrace :: us) →
        ∃ p', p'.tok = .rbrace ∧ Reads D.toCDouble p' (.rbrace :: us) ∧
          parseMembers D n p node = some (ws.foldl (fun node f => f node) node, p') := by
  have hbrace : Yields D.toCDouble (ascii "\x7d") [.rbrace] :=
    yields_token rfl (by simp) fun _ => rfl
  induction h with
  | nil =>
      refine ⟨[], hbrace, fun n p node us hn hreads => ?_⟩
      obtain ⟨n, rfl⟩ : ∃ m, n = m + 1 := ⟨n - 1, by omega⟩
      have htok : p.tok = .rbrace := hreads.1
      exact ⟨p, htok, hreads, by simp [parseMembers, htok]⟩
  | @cons x w xs ws hx hxs ih =>
      obtain ⟨m, hm, hpos, hsets⟩ := hx
      cases hxs with
      | nil =>
          refine ⟨m, ⟨hm.quiet.append hbrace.quiet, fun rest us hus => ?_⟩,
            fun n p node us hn hreads => ?_⟩
          · rw [List.intercalate_singleton, List.append_assoc, List.append_assoc]
            exact hm.reads _ (by decide) _ _ (hbrace.reads _ _ hus)
          · obtain ⟨n, rfl⟩ : ∃ k, n = k + 2 := ⟨n - 2, by omega⟩
            obtain ⟨p', hreads', hturn⟩ := hsets (n + 1) p node _ (by omega) hreads
            have htok : p'.tok = .rbrace := hreads'.1
            refine ⟨p', htok, hreads', ?_⟩
            rw [hturn, skipComma_of_rbrace htok]
            simp [parseMembers, htok]
      | cons hx' hxs' =>
          obtain ⟨ts, hyields, hparse⟩ := ih
          have hcomma : Yields D.toCDouble (ascii ",") [.comma] :=
            yields_token rfl (by simp) fun _ => rfl
          have hrest := hcomma.append hyields
          refine ⟨m ++ .comma :: ts, ⟨?_, fun rest us hus => ?_⟩, fun n p node us hn hreads => ?_⟩
          · rw [List.append_assoc]
            exact hm.quiet.append hrest.quiet
          · rw [List.intercalate_cons_cons]
            simp only [List.append_assoc]
            have hread := hrest.reads _ _ hus
            simp only [List.append_assoc] at hread
            exact hm.reads _ (by decide) _ _ hread
          · rw [List.length_append, List.length_cons] at hn
            obtain ⟨n, rfl⟩ : ∃ k, n = k + 1 := ⟨n - 1, by omega⟩
            rw [List.append_assoc] at hreads
            obtain ⟨p', hreads', hturn⟩ := hsets n p node _ (by omega) hreads
            obtain ⟨p'', htok, hreads'', hloop⟩ := hparse n _ (w node) us (by omega) hreads'.2
            refine ⟨p'', htok, hreads'', ?_⟩
            rw [hturn, skipComma_of_comma hreads'.1, hloop]
            rfl

/-- **Objects.**  The text around members is a node. -/
theorem nodeText_object {xs : List Bytes} {u : GateNode → GateNode} (h : Members D xs u) :
    NodeText D (objectText xs) (u (.mk {} [] [])) := by
  obtain ⟨ws, hws, hu⟩ := h
  obtain ⟨ts, hyields, hparse⟩ := join_members hws
  have hopen : Yields D.toCDouble (ascii "\x7b") [.lbrace] :=
    yields_token rfl (by simp) fun _ => rfl
  refine ⟨.lbrace :: (ts ++ [.rbrace]), by simp, ?_, fun n p us hn hreads => ?_⟩
  · rw [objectText, List.append_assoc]
    exact hopen.append hyields
  · rw [List.cons_append, List.append_assoc] at hreads
    obtain ⟨htok, hreads⟩ := hreads
    simp only [List.length_cons, List.length_append, List.length_nil] at hn
    obtain ⟨n, rfl⟩ : ∃ k, n = k + 1 := ⟨n - 1, by omega⟩
    obtain ⟨p', htok', hreads', hloop⟩ := hparse n _ (.mk {} [] []) us (by omega) hreads
    refine ⟨htok, asparseAdvance D.toCDouble p', hreads'.2, ?_⟩
    rw [parseNode, hloop, hu]
    simp [closeObject, htok', Astok.isRbrace]

theorem isBlank_indentation (indent : Nat) : ∀ c ∈ indentation indent, isBlank c = true := by
  have htwo : ∀ c ∈ ascii "  ", isBlank c = true := List.all_iff_forall_prop.mp (by decide)
  intro c hc
  obtain ⟨s, hs, hcs⟩ := List.mem_flatten.mp hc
  rw [List.eq_of_mem_replicate hs] at hcs
  exact htwo c hcs

theorem join_nodes (indent : Nat) {xs : List Bytes} {nodes : List GateNode}
    (h : List.Forall₂ (NodeText D) xs nodes) :
    ∃ ts, Yields D.toCDouble
        ((ascii ",\n").intercalate (xs.map fun item => indentation indent ++ item)) ts ∧
      ∀ n p us, ts.length < n → Reads D.toCDouble p (ts ++ .rbrack :: us) →
        ∃ p', p'.tok = .rbrack ∧ Reads D.toCDouble p' (.rbrack :: us) ∧
          parseNodes D n p = some (nodes, p') := by
  have hblank : Yields D.toCDouble (indentation indent) [] :=
    yields_blank (isBlank_indentation indent)
  have hstop : ∀ n (p : Asparse ν), p.tok = .rbrack → parseNodes D (n + 1) p = some ([], p) := by
    intro n p htok
    rw [parseNodes, htok]
    rfl
  induction h with
  | nil =>
      refine ⟨[], yields_blank (by simp), fun n p us hn hreads => ?_⟩
      obtain ⟨n, rfl⟩ : ∃ m, n = m + 1 := ⟨n - 1, by omega⟩
      exact ⟨p, hreads.1, hreads, hstop n p hreads.1⟩
  | @cons x node xs nodes hx hxs ih =>
      obtain ⟨m, hpos, hm, hparse⟩ := hx
      have hitem := hblank.append hm
      cases hxs with
      | nil =>
          refine ⟨m, by simpa using hitem, fun n p us hn hreads => ?_⟩
          obtain ⟨n, rfl⟩ : ∃ k, n = k + 2 := ⟨n - 2, by omega⟩
          obtain ⟨htok, p', hreads', hnode⟩ := hparse (n + 1) p _ (by omega) hreads
          refine ⟨p', hreads'.1, hreads', ?_⟩
          have hskip : skipComma D.toCDouble p' = p' := by
            rw [skipComma, hreads'.1]
            rfl
          rw [parseNodes, htok, hnode]
          simp [Astok.isLbrace, hskip, hstop n p' hreads'.1]
      | cons hx' hxs' =>
          obtain ⟨ts, hyields, hloop⟩ := ih
          have hcomma : Yields D.toCDouble (ascii ",") [.comma] :=
            yields_token rfl (by simp) fun _ => rfl
          have hline : Yields D.toCDouble (ascii "\n") [] :=
            yields_blank (List.all_iff_forall_prop.mp (by decide))
          have hrest := (hitem.append (hcomma.append hline)).append hyields
          refine ⟨m ++ .comma :: ts, ?_, fun n p us hn hreads => ?_⟩
          · have hsep : ascii ",\n" = ascii "," ++ ascii "\n" := rfl
            rw [List.map_cons, List.map_cons, List.intercalate_cons_cons]
            simpa [hsep] using hrest
          · rw [List.length_append, List.length_cons] at hn
            obtain ⟨n, rfl⟩ : ∃ k, n = k + 1 := ⟨n - 1, by omega⟩
            rw [List.append_assoc] at hreads
            obtain ⟨htok, p', hreads', hnode⟩ := hparse n p _ (by omega) hreads
            obtain ⟨p'', htok'', hreads'', hnodes⟩ := hloop n _ us (by omega) hreads'.2
            refine ⟨p'', htok'', hreads'', ?_⟩
            rw [parseNodes, htok, hnode]
            simp only [Astok.isLbrace, Bool.true_eq_false, if_false]
            rw [skipComma_of_comma hreads'.1, hnodes]
            rfl

/-- **Arrays.**  The text around items is an array of nodes. -/
theorem array_text (indent : Nat) {xs : List Bytes} {nodes : List GateNode}
    (h : List.Forall₂ (NodeText D) xs nodes) :
    ∃ ts, Yields D.toCDouble (arrayText indent xs) ts ∧
      ∀ n p us, ts.length ≤ n → Reads D.toCDouble p (ts ++ us) →
        p.tok = .lbrack ∧ ∃ p', Reads D.toCDouble p' us ∧
          parseNodeArray D n p = some (nodes, p') := by
  obtain ⟨ts, hyields, hloop⟩ := join_nodes (indent + 1) h
  have hopen : Yields D.toCDouble (ascii "[") [.lbrack] :=
    yields_token rfl (by simp) fun _ => rfl
  have hclose : Yields D.toCDouble (ascii "]") [.rbrack] :=
    yields_token rfl (by simp) fun _ => rfl
  have hline : Yields D.toCDouble (ascii "\n") [] :=
    yields_blank (List.all_iff_forall_prop.mp (by decide))
  have hblank := yields_blank (D := D.toCDouble) (isBlank_indentation indent)
  have hall := ((((hopen.append hline).append hyields).append hline).append hblank).append hclose
  have hhead : ascii "[\n" = ascii "[" ++ ascii "\n" := rfl
  refine ⟨.lbrack :: (ts ++ [.rbrack]), by simpa [arrayText, hhead] using hall,
    fun n p us hn hreads => ?_⟩
  rw [List.cons_append, List.append_assoc] at hreads
  obtain ⟨htok, hreads⟩ := hreads
  simp only [List.length_cons, List.length_append, List.length_nil] at hn
  obtain ⟨n, rfl⟩ : ∃ k, n = k + 1 := ⟨n - 1, by omega⟩
  obtain ⟨p', htok', hreads', hnodes⟩ := hloop n _ us (by omega) hreads
  refine ⟨htok, asparseAdvance D.toCDouble p', hreads'.2, ?_⟩
  rw [parseNodeArray, hnodes]
  simp [htok', Astok.isEof]

theorem members_array (indent : Nat) {key : String} (hkey : PlainKey key) {xs : List Bytes}
    {nodes : List GateNode} (h : List.Forall₂ (NodeText D) xs nodes)
    (set : List GateNode → GateNode → GateNode)
    (hturn : ∀ n p p' node arr, p.tok = .string (ascii key) →
      (asparseAdvance D.toCDouble p).tok = .colon →
      (asparseAdvance D.toCDouble (asparseAdvance D.toCDouble p)).tok = .lbrack →
      parseNodeArray D n (asparseAdvance D.toCDouble (asparseAdvance D.toCDouble p)) =
        some (arr, p') →
      parseMembers D (n + 1) p node = parseMembers D n (skipComma D.toCDouble p') (set arr node)) :
    Members D (arrayMember indent key xs)
      (fun node => if nodes = [] then node else set nodes node) := by
  cases h with
  | nil => exact Members.nil
  | @cons x node' xs nodes' hx hxs =>
      obtain ⟨ts, hyields, harray⟩ := array_text (indent + 1) (List.Forall₂.cons hx hxs)
      have hline : Yields D.toCDouble (ascii "\n") [] :=
        yields_blank (List.all_iff_forall_prop.mp (by decide))
      have hblank := yields_blank (D := D.toCDouble) (isBlank_indentation (indent + 1))
      have hall := ((hline.append hblank).append (hyields.keyed hkey)).member
      have htext : arrayMember indent key (x :: xs) =
          [ascii "\n" ++ indentation (indent + 1) ++ (keyText key ++
            arrayText (indent + 1) (x :: xs))] := by
        simp [arrayMember, keyText]
      rw [htext]
      simp only [reduceCtorEq, if_false]
      refine Members.single ⟨_, hall, by simp, fun n p node us hn hreads => ?_⟩
      simp only [List.nil_append, List.length_cons] at hn hreads
      obtain ⟨htok, hcolon, hreads⟩ := hreads
      obtain ⟨hbrack, p', hreads', harr⟩ := harray n _ us (by omega) hreads
      exact ⟨p', hreads', hturn n p p' node _ htok hcolon hbrack harr⟩

theorem onScalars_comp (w w' : GateScalars → GateScalars) :
    onScalars w' ∘ onScalars w = onScalars (w' ∘ w) := rfl

theorem members_scalars (hD : StrtodSpec D) {s : GateScalars} (h : s.LayerDefined) :
    ∃ w, Members D (scalarMembers s) (onScalars w) ∧ w {} = s.readBack := by
  have htype := members_string (D := D) (show PlainKey "type" by decide) s.type
    (fun v t => { t with type := v.or t.type }) (fun _ => rfl) fun _ _ => rfl
  have hid := members_string (D := D) (show PlainKey "id" by decide) s.id
    (fun v t => { t with id := v.or t.id }) (fun _ => rfl) fun _ _ => rfl
  have hfield := members_string (D := D) (show PlainKey "field_key" by decide) s.fieldKey
    (fun v t => { t with fieldKey := v.or t.fieldKey }) (fun _ => rfl) fun _ _ => rfl
  have hop := members_string (D := D) (show PlainKey "op" by decide) s.op
    (fun v t => { t with op := v.or t.op }) (fun _ => rfl) fun _ _ => rfl
  have hvalue := members_string (D := D) (show PlainKey "value" by decide) s.value
    (fun v t => { t with value := v.or t.value }) (fun _ => rfl) fun _ _ => rfl
  have hlayer := members_layer hD h.1 h.2
  have hstable := members_string (D := D) (show PlainKey "stable_key" by decide) s.stableKey
    (fun v t => { t with stableKey := v.or t.stableKey }) (fun _ => rfl) fun _ _ => rfl
  have hsub := members_string (D := D) (show PlainKey "sub_category" by decide) s.subCategory
    (fun v t => { t with subCategory := v.or t.subCategory }) (fun _ => rfl) fun _ _ => rfl
  have hdomain := members_string (D := D) (show PlainKey "domain" by decide) s.domain
    (fun v t => { t with domain := v.or t.domain }) (fun _ => rfl) fun _ _ => rfl
  have hentity := members_string (D := D) (show PlainKey "entity" by decide) s.entity
    (fun v t => { t with entity := v.or t.entity }) (fun _ => rfl) fun _ _ => rfl
  have hall := ((((((((htype.append hid).append hfield).append hop).append hvalue).append
    hlayer).append hstable).append hsub).append hdomain).append hentity
  simp only [onScalars_comp] at hall
  have hdefined : 0 ≤ s.layer ∧ s.layer < gateLayerCount := h
  rw [scalarMembers, if_pos hdefined]
  exact ⟨_, hall, by simp [GateScalars.readBack]⟩

mutual

/-- **Nodes.**  The text of a node is read as the node with its strings as they
are read back. -/
theorem nodeText_serializeNode (hD : StrtodSpec D) (indent : Nat) : ∀ node : GateNode,
    node.Forall GateScalars.LayerDefined → NodeText D (serializeNode indent node) node.readBack
  | .mk s children doNodes, h => by
      obtain ⟨hs, hchildren, hdo⟩ := h
      obtain ⟨w, hscalars, hw⟩ := members_scalars hD hs
      have harr := members_array indent (show PlainKey "children" by decide)
        (nodeTexts_serializeNodes hD (indent + 2) children hchildren)
        (fun arr node => .mk node.scalars arr node.doNodes)
        (fun n p p' node arr hkey hcolon hbrack harr => by
          have hne : ascii "children" ≠ ascii "layer" := by decide
          simp [parseMembers, hkey, hcolon, hbrack, harr, Astok.isColon, setScalar])
      have hdoArr := members_array indent (show PlainKey "do" by decide)
        (nodeTexts_serializeNodes hD (indent + 2) doNodes hdo)
        (fun arr node => .mk node.scalars node.children arr)
        (fun n p p' node arr hkey hcolon hbrack harr => by
          have hne : ascii "do" ≠ ascii "children" := by decide
          simp [parseMembers, hkey, hcolon, hbrack, harr, Astok.isColon, setScalar, hne])
      have hobj := nodeText_object ((hscalars.append harr).append hdoArr)
      have heq : ∀ arr darr : List GateNode,
          (fun node : GateNode => if darr = [] then node else .mk node.scalars node.children darr)
            ((fun node : GateNode => if arr = [] then node else .mk node.scalars arr node.doNodes)
              (onScalars w (.mk {} [] []))) = .mk (w {}) arr darr := by
        intro arr darr
        cases arr <;> cases darr <;> rfl
      rw [serializeNode, GateNode.readBack, ← hw, ← heq]
      exact hobj

theorem nodeTexts_serializeNodes (hD : StrtodSpec D) (indent : Nat) : ∀ nodes : List GateNode,
    GateNode.ForallIn GateScalars.LayerDefined nodes →
    List.Forall₂ (NodeText D) (serializeNodes indent nodes) (GateNode.readBackAll nodes)
  | [], _ => .nil
  | n :: ns, h =>
      .cons (nodeText_serializeNode hD indent n h.1) (nodeTexts_serializeNodes hD indent ns h.2)

end

end

end Proofs.JsonReading

end BlessStar.Gate
