import BlessStar.Gate.Proofs.TokenReading
import BlessStar.Gate.RuleFile

/-!
# Loading a rule file

The loader reads a file that it can read as the file was meant: each value is passed
to its end, each member is set, and the rules come in order.
-/

namespace BlessStar.Gate.Proofs.RuleLoading

open Lib.ByteString

def wordBytes : Bytes := ascii "0123456789+-.eEtrufalsn"

theorem mem_wordBytes_of_digit {c : UInt8} (h : (digitValue 10 c).isSome) : c ∈ wordBytes := by
  have hrange : 48 ≤ c.toNat ∧ c.toNat ≤ 57 := by
    unfold digitValue at h
    grind
  have hall : ∀ n, 48 ≤ n → n ≤ 57 → UInt8.ofNat n ∈ wordBytes := by
    intro n hlow hhigh
    interval_cases n <;> decide
  have hc := hall c.toNat hrange.1 hrange.2
  rwa [UInt8.ofNat_toNat] at hc

theorem mem_wordBytes_of_number {t : Bytes} (h : IsNumber t) : ∀ c ∈ t, c ∈ wordBytes := by
  cases h with
  | @mk sign int frac exp hsign hint _ hfrac hexp =>
      have digits : ∀ {ds : Bytes}, IsDigits ds → ∀ c ∈ ds, c ∈ wordBytes :=
        fun hds c hc => mem_wordBytes_of_digit (hds.2 c hc)
      intro c hc
      simp only [List.mem_append] at hc
      rcases hc with ((hc | hc) | hc) | hc
      · rcases hsign with rfl | rfl
        · cases hc
        · exact List.all_iff_forall_prop.mp (by decide : (ascii "-").all (· ∈ wordBytes)) c hc
      · exact digits hint c hc
      · rcases hfrac with rfl | ⟨ds, rfl, hds⟩
        · cases hc
        · rcases List.mem_cons.mp hc with rfl | hc
          · decide
          · exact digits hds c hc
      · rcases hexp with rfl | ⟨e, s, ds, rfl, he, hs, hds⟩
        · cases hc
        · rw [List.mem_cons, List.mem_append] at hc
          rcases hc with rfl | hc | hc
          · exact List.all_iff_forall_prop.mp (by decide : (ascii "eE").all (· ∈ wordBytes)) c he
          · have hsigns : ∀ s ∈ [[], ascii "+", ascii "-"], ∀ c ∈ s, c ∈ wordBytes := by decide
            exact hsigns s hs c hc
          · exact digits hds c hc

theorem mem_wordBytes_of_bare {t : Bytes} (h : IsBare t) : ∀ c ∈ t, c ∈ wordBytes := by
  rcases h with hnum | hword
  · exact mem_wordBytes_of_number hnum
  · have hwords : ∀ w ∈ [ascii "true", ascii "false", ascii "null"], ∀ c ∈ w, c ∈ wordBytes := by
      decide
    exact hwords t hword

theorem mem_wordBytes_of_decimal (n : Nat) : ∀ c ∈ decimal n, c ∈ wordBytes := by
  intro c hc
  obtain ⟨d, hd, rfl⟩ := isDigit_of_mem_numeral (by omega) hc
  have hdigits : ∀ d < 10, digitByte d ∈ wordBytes := by decide
  exact hdigits d hd

theorem decimal_ne_nil (n : Nat) : decimal n ≠ [] := numeral_ne_nil 10 n

theorem bare_ne_nil {t : Bytes} (h : IsBare t) : t ≠ [] := by
  rcases h with hnum | hword
  · cases hnum with
    | mk _ hint =>
        have hne := hint.1
        simp [hne]
  · rintro rfl
    exact absurd hword (by decide)

theorem wordBytes_plain : ∀ c ∈ wordBytes, isBareByte c = true ∧ isBlank c = false ∧ c ≠ 0 ∧
    c ≠ ch '"' ∧ c ≠ ch '\x7b' ∧ c ≠ ch '[' ∧ c ≠ ch '\x7d' ∧ c ≠ ch ']' := by
  decide

theorem jsonStringBody_spelling {s t : Bytes} (h : SpellsString s t) (rest : Bytes) :
    jsonStringBody (t ++ ch '"' :: rest) = (s, rest) := by
  induction h with
  | nil => exact jsonStringBody_quote rest
  | raw _ hquote hslash _ ih => rw [List.cons_append, jsonStringBody_raw hquote hslash, ih]
  | escape _ _ ih => rw [List.cons_append, List.cons_append, jsonStringBody_escape, ih]

theorem jsonStringBody_append {x : Bytes} (hx : ∀ c ∈ x, c ≠ ch '"' ∧ c ≠ ch '\\') (rest : Bytes) :
    (jsonStringBody (x ++ rest)).2 = (jsonStringBody rest).2 := by
  induction x with
  | nil => rfl
  | cons c x ih =>
      rw [List.forall_mem_cons] at hx
      rw [List.cons_append, jsonStringBody_raw hx.1.1 hx.1.2]
      exact ih hx.2

theorem hex_plain {ds : Bytes} {n : Nat} (h : IsHex4 ds n) :
    ∀ c ∈ ds, c ≠ 0 ∧ c ≠ ch '"' ∧ c ≠ ch '\\' := by
  intro c hc
  have hdigit := h.2.1 c hc
  have hnone : ∀ d ∈ [0, ch '"', ch '\\'], digitValue 16 d = none := by decide
  have hne : ∀ d ∈ [0, ch '"', ch '\\'], c ≠ d := by
    rintro d hd rfl
    rw [hnone c hd] at hdigit
    cases hdigit
  exact ⟨hne _ (by simp), hne _ (by simp), hne _ (by simp)⟩

theorem rest_jsonStringBody {s t : Bytes} (h : SpellsJsonString s t) (rest : Bytes) :
    (jsonStringBody (t ++ ch '"' :: rest)).2 = rest := by
  have plain : ∀ {ds : Bytes} {n : Nat}, IsHex4 ds n → ∀ c ∈ ds, c ≠ ch '"' ∧ c ≠ ch '\\' :=
    fun hds c hc => (hex_plain hds c hc).2
  induction h with
  | nil => rw [List.nil_append, jsonStringBody_quote]
  | raw _ hquote hslash _ ih => rw [List.cons_append, jsonStringBody_raw hquote hslash, ih]
  | escape _ _ ih => rw [List.cons_append, List.cons_append, jsonStringBody_escape, ih]
  | unicode hds _ _ ih =>
      rw [List.cons_append, List.cons_append, jsonStringBody_escape, List.append_assoc,
        jsonStringBody_append (plain hds), ih]
  | surrogates hds _ _ hds' _ _ _ ih =>
      rw [List.cons_append, List.cons_append, jsonStringBody_escape, List.append_assoc,
        jsonStringBody_append (plain hds), List.cons_append, List.cons_append,
        jsonStringBody_escape, List.append_assoc, jsonStringBody_append (plain hds'), ih]

theorem not_zero_mem_jsonString {s t : Bytes} (h : SpellsJsonString s t) : (0 : UInt8) ∉ t := by
  have hne : (0 : UInt8) ≠ ch '\\' ∧ (0 : UInt8) ≠ ch 'u' := by decide
  have plain : ∀ {ds : Bytes} {n : Nat}, IsHex4 ds n → (0 : UInt8) ∉ ds :=
    fun hds h0 => (hex_plain hds 0 h0).1 rfl
  induction h with
  | nil => simp
  | @raw c s t hlow _ _ _ ih =>
      have hc : (0 : UInt8) ≠ c := by
        rintro rfl
        exact absurd hlow (by decide)
      simp [hc, ih]
  | @escape c s t hc _ ih =>
      have hmem : ∀ c ∈ ascii "\"\\/bfnrt", (0 : UInt8) ≠ c := by decide
      simp [hne, hmem c hc, ih]
  | unicode hds _ _ ih => simp [hne, plain hds, ih]
  | surrogates hds _ _ hds' _ _ _ ih => simp [hne, plain hds, plain hds', ih]

def Passes (close : UInt8) (t : Bytes) : Prop :=
  (0 : UInt8) ∉ t ∧
    ∀ depth rest, jsonSkipNested close (depth + 1) (t ++ rest) =
      jsonSkipNested close (depth + 1) rest

namespace Passes

variable {close : UInt8}

theorem append {x y : Bytes} (hx : Passes close x) (hy : Passes close y) :
    Passes close (x ++ y) := by
  refine ⟨by simp [hx.1, hy.1], fun depth rest => ?_⟩
  rw [List.append_assoc, hx.2, hy.2]

theorem byte {c : UInt8} (hc : c ≠ 0 ∧ c ≠ ch '"' ∧ c ≠ ch '\x7b' ∧ c ≠ ch '[' ∧ c ≠ close) :
    Passes close [c] := by
  obtain ⟨h0, hquote, hbrace, hbrack, hclose⟩ := hc
  refine ⟨by simpa using h0.symm, fun depth rest => ?_⟩
  rw [List.singleton_append, jsonSkipNested, if_neg hquote, if_neg (by simp [hbrace, hbrack]),
    if_neg hclose]

theorem bytes {t : Bytes}
    (h : ∀ c ∈ t, c ≠ 0 ∧ c ≠ ch '"' ∧ c ≠ ch '\x7b' ∧ c ≠ ch '[' ∧ c ≠ close) :
    Passes close t := by
  induction t with
  | nil => exact ⟨by simp, fun _ _ => rfl⟩
  | cons c t ih =>
      rw [List.forall_mem_cons] at h
      exact append (byte h.1) (ih h.2)

theorem string {s t : Bytes} (h : SpellsJsonString s t) :
    Passes close (ch '"' :: (t ++ [ch '"'])) := by
  have hquote : (0 : UInt8) ≠ ch '"' := by decide
  refine ⟨by simp [hquote, not_zero_mem_jsonString h], fun depth rest => ?_⟩
  rw [List.cons_append, List.append_assoc, jsonSkipNested, if_pos rfl, List.singleton_append,
    rest_jsonStringBody h]

def IsClosing (close : UInt8) : Prop := close = ch ']' ∨ close = ch '\x7d'

theorem gap (hclose : IsClosing close) {ws : Bytes} (h : IsGap ws) : Passes close ws := by
  have hplain : ∀ c ∈ ascii " \t\n\r", c ≠ 0 ∧ c ≠ ch '"' ∧ c ≠ ch '\x7b' ∧ c ≠ ch '[' ∧
      c ≠ ch ']' ∧ c ≠ ch '\x7d' := by decide
  apply bytes
  intro c hc
  obtain ⟨h0, hquote, hbrace, hbrack, hclosings⟩ := hplain c (h c hc)
  rcases hclose with rfl | rfl
  · exact ⟨h0, hquote, hbrace, hbrack, hclosings.1⟩
  · exact ⟨h0, hquote, hbrace, hbrack, hclosings.2⟩

theorem bare (hclose : IsClosing close) {t : Bytes} (h : IsBare t) : Passes close t := by
  apply bytes
  intro c hc
  obtain ⟨-, -, h0, hquote, hbrace, hbrack, hclosings⟩ :=
    wordBytes_plain c (mem_wordBytes_of_bare h c hc)
  rcases hclose with rfl | rfl
  · exact ⟨h0, hquote, hbrace, hbrack, hclosings.2⟩
  · exact ⟨h0, hquote, hbrace, hbrack, hclosings.1⟩

theorem comma (hclose : IsClosing close) : Passes close [ch ','] := by
  rcases hclose with rfl | rfl <;> exact byte (by decide)

theorem colon (hclose : IsClosing close) : Passes close [ch ':'] := by
  rcases hclose with rfl | rfl <;> exact byte (by decide)

end Passes

inductive Enclosed (close : UInt8) : Bytes → Prop
  | array {x : Bytes} : close = ch ']' → Passes close x →
      Enclosed close (ch '[' :: (x ++ [ch ']']))
  | object {x : Bytes} : close = ch '\x7d' → Passes close x →
      Enclosed close (ch '\x7b' :: (x ++ [ch '\x7d']))

theorem Enclosed.passes {close : UInt8} {t : Bytes} (h : Enclosed close t) : Passes close t := by
  cases h with
  | array hclose hx =>
      subst hclose
      have h0 : (0 : UInt8) ≠ ch '[' ∧ (0 : UInt8) ≠ ch ']' := by decide
      refine ⟨by simp [h0, hx.1], fun depth rest => ?_⟩
      rw [List.cons_append, List.append_assoc, jsonSkipNested, if_neg (by decide),
        if_pos (Or.inr rfl), hx.2, List.singleton_append, jsonSkipNested, if_neg (by decide),
        if_neg (by decide), if_pos rfl]
  | object hclose hx =>
      subst hclose
      have h0 : (0 : UInt8) ≠ ch '\x7b' ∧ (0 : UInt8) ≠ ch '\x7d' := by decide
      refine ⟨by simp [h0, hx.1], fun depth rest => ?_⟩
      rw [List.cons_append, List.append_assoc, jsonSkipNested, if_neg (by decide),
        if_pos (Or.inl rfl), hx.2, List.singleton_append, jsonSkipNested, if_neg (by decide),
        if_neg (by decide), if_pos rfl]

theorem enclosed_nested {arrays objects : Prop} {close : UInt8} (hclose : Passes.IsClosing close)
    (harrays : arrays → close = ch ']') (hobjects : objects → close = ch '\x7d') {t : Bytes}
    (h : IsNested arrays objects t) : Enclosed close t := by
  have list : ∀ {ws t ws' : Bytes}, IsGap ws → Passes close t → IsGap ws' →
      Passes close (ws ++ (t ++ ws')) := fun hws ht hws' =>
    (Passes.gap hclose hws).append (ht.append (Passes.gap hclose hws'))
  have listMore : ∀ {ws t ws' u : Bytes}, IsGap ws → Passes close t → IsGap ws' →
      Passes close u → Passes close (ws ++ (t ++ (ws' ++ ch ',' :: u))) := by
    intro ws t ws' u hws ht hws' hu
    exact (Passes.gap hclose hws).append
      (ht.append ((Passes.gap hclose hws').append ((Passes.comma hclose).append hu)))
  refine @IsNested.rec arrays objects (fun t _ => Passes close t) (fun t _ => Enclosed close t)
    (fun t _ => Passes close t) (fun t _ => Passes close t) (fun t _ => Passes close t)
    ?_ ?_ ?_ ?_ ?_ ?_ ?_ ?_ ?_ ?_ ?_ ?_ t h
  · exact fun hs => Passes.string hs
  · exact fun ht => Passes.bare hclose ht
  · exact fun _ ht => ht.passes
  · exact fun ha hws => .array (harrays ha) (Passes.gap hclose hws)
  · exact fun ha _ ht => .array (harrays ha) ht
  · exact fun ho hws => .object (hobjects ho) (Passes.gap hclose hws)
  · exact fun ho _ ht => .object (hobjects ho) ht
  · exact fun hws _ hws' ht => list hws ht hws'
  · exact fun hws _ hws' _ ht hu => listMore hws ht hws' hu
  · exact fun hws _ hws' ht => list hws ht hws'
  · exact fun hws _ hws' _ ht hu => listMore hws ht hws' hu
  · intro k s ws ws' t hs hws hws' _ ht
    have hkey : Passes close _ := Passes.string hs
    have hmember := hkey.append ((Passes.gap hclose hws).append
      ((Passes.colon hclose).append ((Passes.gap hclose hws').append ht)))
    simpa using hmember

theorem skipSpaces_gap {ws : Bytes} (h : IsGap ws) (rest : Bytes) :
    jsonSkipSpaces (ws ++ rest) = jsonSkipSpaces rest :=
  List.dropWhile_append_of_pos fun c hc => TokenReading.isBlank_of_mem c (h c hc)

theorem skipSpaces_cons {c : UInt8} (h : isBlank c = false) (rest : Bytes) :
    jsonSkipSpaces (c :: rest) = c :: rest :=
  List.dropWhile_cons_of_neg (by simp [h])

theorem jsonParseString_quote {ws t : Bytes} (hws : IsGap ws) (rest : Bytes) :
    jsonParseString (ws ++ ch '"' :: (t ++ rest)) = jsonStringBody (t ++ rest) := by
  rw [jsonParseString, skipSpaces_gap hws, skipSpaces_cons (by decide)]
  exact if_pos rfl

def Ends (rest : Bytes) : Prop := ∀ c, rest.head? = some c → isBareByte c = false

theorem jsonParseValue_word {ws t rest : Bytes} (hws : IsGap ws) (hne : t ≠ [])
    (ht : ∀ c ∈ t, c ∈ wordBytes) (hrest : Ends rest) :
    jsonParseValue (ws ++ (t ++ rest)) = (t, rest) := by
  have hbare : ∀ c ∈ t, isBareByte c = true := fun c hc => (wordBytes_plain c (ht c hc)).1
  cases t with
  | nil => exact absurd rfl hne
  | cons c t =>
      obtain ⟨-, hblank, -, hquote, hbrace, hbrack, -, -⟩ :=
        wordBytes_plain c (ht c List.mem_cons_self)
      have htake : ((c :: t) ++ rest).takeWhile isBareByte = c :: t := by
        rw [List.takeWhile_append_of_pos hbare]
        cases rest with
        | nil => simp
        | cons d rest => simp [hrest d rfl]
      have hdrop : ((c :: t) ++ rest).dropWhile isBareByte = rest := by
        rw [List.dropWhile_append_of_pos hbare]
        cases rest with
        | nil => rfl
        | cons d rest => simp [hrest d rfl]
      rw [jsonParseValue, skipSpaces_gap hws, List.cons_append, skipSpaces_cons hblank]
      simp only [if_neg hquote, if_neg hbrace, if_neg hbrack]
      rw [← List.cons_append, htake, hdrop]

theorem jsonParseValue_string {ws t : Bytes} (hws : IsGap ws) (rest : Bytes) :
    jsonParseValue (ws ++ ch '"' :: (t ++ ch '"' :: rest)) =
      jsonStringBody (t ++ ch '"' :: rest) := by
  rw [jsonParseValue, skipSpaces_gap hws, skipSpaces_cons (by decide)]
  exact if_pos rfl

theorem jsonParseValue_enclosed {ws t : Bytes} (hws : IsGap ws) {close : UInt8}
    (h : Enclosed close t) (rest : Bytes) : jsonParseValue (ws ++ (t ++ rest)) = ([], rest) := by
  rw [jsonParseValue, skipSpaces_gap hws]
  cases h with
  | array hclose hx =>
      subst hclose
      rw [List.cons_append, skipSpaces_cons (by decide), List.append_assoc]
      simp only [if_neg (show ch '[' ≠ ch '"' by decide),
        if_neg (show ch '[' ≠ ch '\x7b' by decide), if_true]
      rw [hx.2, List.singleton_append, jsonSkipNested, if_neg (by decide), if_neg (by decide),
        if_pos rfl, jsonSkipNested]
  | object hclose hx =>
      subst hclose
      rw [List.cons_append, skipSpaces_cons (by decide), List.append_assoc]
      simp only [if_neg (show ch '\x7b' ≠ ch '"' by decide), if_true]
      rw [hx.2, List.singleton_append, jsonSkipNested, if_neg (by decide), if_neg (by decide),
        if_pos rfl, jsonSkipNested]

theorem atoi_decimal (n : Nat) : atoi (decimal n) = n := by
  have hbytes := mem_wordBytes_of_decimal n
  obtain ⟨c, t, hct⟩ := List.exists_cons_of_ne_nil (decimal_ne_nil n)
  have hc : c ∈ decimal n := by
    rw [hct]
    exact List.mem_cons_self
  obtain ⟨hlow, hhigh⟩ := (isDigit_of_mem_numeral (by omega) hc).decimal_range
  have hspace : isSpace c = false := by
    have hbare := (wordBytes_plain c (hbytes c hc)).1
    simp only [isBareByte, Bool.and_eq_true, Bool.not_eq_true'] at hbare
    exact hbare.1.1.1
  have hsign : c ≠ ch '-' ∧ c ≠ ch '+' := by
    constructor <;> rintro rfl <;> exact absurd hlow (by decide)
  have hdrop : (decimal n).dropWhile isSpace = decimal n := by
    rw [hct]
    exact List.dropWhile_cons_of_neg (by simp [hspace])
  have hhead : (decimal n).head? = some c := by
    rw [hct]
    rfl
  rw [atoi, hdrop]
  simp only [hhead, Option.some.injEq, hsign, or_self, if_false]
  exact congrArg Nat.cast (value_numeral (by omega) (by omega) n)

def setMember (rule : GateRuleDef) (m : RuleMember) : GateRuleDef :=
  if m.name = ascii "field_key" then { rule with fieldKey := m.value.bytes }
  else if m.name = ascii "field_type" then { rule with fieldTypeStr := m.value.bytes }
  else if m.name = ascii "op" then { rule with op := m.value.bytes }
  else if m.name = ascii "value" then { rule with value := m.value.bytes }
  else if m.name = ascii "scenario" then { rule with scenario := m.value.bytes }
  else if m.name = ascii "sub_category" then { rule with subCategory := m.value.bytes }
  else if m.name = ascii "stable_key" then { rule with stableKey := m.value.bytes }
  else if m.name = ascii "error_hint" then { rule with errorHint := m.value.bytes }
  else if m.name = ascii "layer" then { rule with layer := atoi m.value.bytes }
  else if m.name = ascii "enabled" then { rule with enabled := m.value.bytes = ascii "true" }
  else rule

theorem rest_jsonParseValue {m : RuleMember} (hwf : m.value.IsWellFormed) (hread : m.IsReadable)
    {ws rest : Bytes} (hws : IsGap ws) (hrest : Ends rest) :
    (jsonParseValue (ws ++ (m.value.text ++ rest))).2 = rest := by
  obtain ⟨-, -, hread⟩ := hread
  cases hv : m.value with
  | string val text =>
      rw [hv] at hwf
      rw [RuleValue.text, List.cons_append, List.append_assoc, List.singleton_append,
        jsonParseValue_string hws, rest_jsonStringBody hwf]
  | nat n =>
      rw [RuleValue.text, jsonParseValue_word hws (decimal_ne_nil n)
        (mem_wordBytes_of_decimal n) hrest]
  | bare text =>
      rw [hv] at hwf
      rw [RuleValue.text, jsonParseValue_word hws (bare_ne_nil hwf)
        (mem_wordBytes_of_bare hwf) hrest]
  | nested text =>
      rw [hv] at hread
      rw [RuleValue.text]
      rcases hread with harray | hobject
      · rw [jsonParseValue_enclosed hws
          (enclosed_nested (Or.inl rfl) (fun _ => rfl) (fun h => h.elim) harray)]
      · rw [jsonParseValue_enclosed hws
          (enclosed_nested (Or.inr rfl) (fun h => h.elim) (fun _ => rfl) hobject)]

theorem bytes_jsonParseValue {m : RuleMember} (hwf : m.value.IsWellFormed) (hread : m.IsReadable)
    (hplain : ∀ val text, m.value = .string val text → m.name ∈ ascii "value" :: stringNames)
    {ws rest : Bytes} (hws : IsGap ws) (hrest : Ends rest) :
    (jsonParseValue (ws ++ (m.value.text ++ rest))).1 = m.value.bytes := by
  obtain ⟨-, -, hread⟩ := hread
  cases hv : m.value with
  | string val text =>
      rw [hv] at hread
      rw [RuleValue.text, List.cons_append, List.append_assoc, List.singleton_append,
        jsonParseValue_string hws, jsonStringBody_spelling (hread (hplain val text hv))]
      rfl
  | nat n =>
      rw [RuleValue.text, jsonParseValue_word hws (decimal_ne_nil n)
        (mem_wordBytes_of_decimal n) hrest]
      rfl
  | bare text =>
      rw [hv] at hwf
      rw [RuleValue.text, jsonParseValue_word hws (bare_ne_nil hwf)
        (mem_wordBytes_of_bare hwf) hrest]
      rfl
  | nested text =>
      rw [hv] at hread
      rw [RuleValue.text]
      rcases hread with harray | hobject
      · rw [jsonParseValue_enclosed hws
          (enclosed_nested (Or.inl rfl) (fun _ => rfl) (fun h => h.elim) harray)]
        rfl
      · rw [jsonParseValue_enclosed hws
          (enclosed_nested (Or.inr rfl) (fun h => h.elim) (fun _ => rfl) hobject)]
        rfl

theorem jsonParseString_member {m : RuleMember} (htyped : m.IsTyped) (hread : m.IsReadable)
    (hname : m.name ∈ stringNames) {ws : Bytes} (hws : IsGap ws) (rest : Bytes) :
    jsonParseString (ws ++ (m.value.text ++ rest)) = (m.value.bytes, rest) := by
  obtain ⟨val, text, hv⟩ := htyped.1 hname
  obtain ⟨-, -, hread⟩ := hread
  rw [hv] at hread ⊢
  rw [RuleValue.text, List.cons_append, List.append_assoc, List.singleton_append,
    jsonParseString_quote hws, jsonStringBody_spelling (hread (List.mem_cons_of_mem _ hname))]
  rfl

structure Loadable (m : RuleMember) : Prop where
  value : m.value.IsWellFormed
  typed : m.IsTyped
  readable : m.IsReadable

theorem readMember_eq {m : RuleMember} (h : Loadable m) {ws rest : Bytes} (hws : IsGap ws)
    (hrest : Ends rest) (rule : GateRuleDef) :
    readMember m.name (ws ++ (m.value.text ++ rest)) rule = (setMember rule m, rest) := by
  have hval := rest_jsonParseValue h.value h.readable hws hrest
  have hbytes := fun hplain => bytes_jsonParseValue h.value h.readable hplain hws hrest
  have hstr := fun hname => jsonParseString_member h.typed h.readable hname hws rest
  unfold readMember setMember
  dsimp only
  by_cases h1 : m.name = ascii "field_key"
  · rw [if_pos h1, if_pos h1, hstr (h1 ▸ by decide)]
  rw [if_neg h1, if_neg h1]
  by_cases h2 : m.name = ascii "field_type"
  · rw [if_pos h2, if_pos h2, hstr (h2 ▸ by decide)]
  rw [if_neg h2, if_neg h2]
  by_cases h3 : m.name = ascii "op"
  · rw [if_pos h3, if_pos h3, hstr (h3 ▸ by decide)]
  rw [if_neg h3, if_neg h3]
  by_cases h4 : m.name = ascii "value"
  · rw [if_pos h4, if_pos h4, hval, hbytes fun _ _ _ => h4 ▸ List.mem_cons_self]
  rw [if_neg h4, if_neg h4]
  by_cases h5 : m.name = ascii "scenario"
  · rw [if_pos h5, if_pos h5, hstr (h5 ▸ by decide)]
  rw [if_neg h5, if_neg h5]
  by_cases h6 : m.name = ascii "sub_category"
  · rw [if_pos h6, if_pos h6, hstr (h6 ▸ by decide)]
  rw [if_neg h6, if_neg h6]
  by_cases h7 : m.name = ascii "stable_key"
  · rw [if_pos h7, if_pos h7, hstr (h7 ▸ by decide)]
  rw [if_neg h7, if_neg h7]
  by_cases h8 : m.name = ascii "error_hint"
  · rw [if_pos h8, if_pos h8, hstr (h8 ▸ by decide)]
  rw [if_neg h8, if_neg h8]
  by_cases h9 : m.name = ascii "layer"
  · obtain ⟨n, -, hn⟩ := h.typed.2.2.1 h9
    rw [if_pos h9, if_pos h9, hval, hbytes fun val text hv => by rw [hn] at hv; cases hv]
  rw [if_neg h9, if_neg h9]
  by_cases h10 : m.name = ascii "enabled"
  · rw [if_pos h10, if_pos h10, hval, hbytes fun val text hv => by
      rcases h.typed.2.2.2 h10 with hb | hb <;> rw [hb] at hv <;> cases hv]
  rw [if_neg h10, if_neg h10, hval]

theorem readMembers_member {m : RuleMember} (h : Loadable m) {ws x rest : Bytes} (hws : IsGap ws)
    (hx : SpellsMember m x) (hrest : Ends rest) (n : Nat) (rule : GateRuleDef) :
    readMembers (n + 1) (ws ++ (x ++ rest)) rule =
      readMembers n (jsonSkipByte (ch ',') (jsonSkipSpaces rest)) (setMember rule m) := by
  cases hx with
  | @mk ws₁ ws₂ hws₁ hws₂ =>
      obtain ⟨hkey, hname, -⟩ := h.readable
      have happ : ws ++ (ch '"' :: (m.keyText ++ ch '"' ::
          (ws₁ ++ ch ':' :: (ws₂ ++ m.value.text))) ++ rest) =
          ws ++ ch '"' :: (m.keyText ++ ch '"' ::
            (ws₁ ++ ch ':' :: (ws₂ ++ (m.value.text ++ rest)))) := by
        simp
      have hspaces := skipSpaces_gap hws
        (ch '"' :: (m.keyText ++ ch '"' :: (ws₁ ++ ch ':' :: (ws₂ ++ (m.value.text ++ rest)))))
      rw [skipSpaces_cons (by decide)] at hspaces
      have hstring := @jsonParseString_quote [] m.keyText (by intro c hc; cases hc)
        (ch '"' :: (ws₁ ++ ch ':' :: (ws₂ ++ (m.value.text ++ rest))))
      rw [List.nil_append, jsonStringBody_spelling hkey] at hstring
      rw [happ, readMembers, if_neg (by simp), hspaces]
      dsimp only
      rw [startsWith_cons, if_neg (by decide), hstring]
      dsimp only
      rw [if_neg hname, skipSpaces_gap hws₁, skipSpaces_cons (by decide), startsWith_cons,
        if_pos (by decide), List.tail_cons, readMember_eq h hws₂ hrest]

theorem ends_gap {ws : Bytes} (hws : IsGap ws) {c : UInt8} (hc : isBareByte c = false)
    (rest : Bytes) : Ends (ws ++ c :: rest) := by
  have hgap : ∀ c ∈ ascii " \t\n\r", isBareByte c = false := by decide
  intro d hd
  cases ws with
  | nil =>
      injection hd with hd
      rwa [← hd]
  | cons w ws =>
      injection hd with hd
      rw [← hd]
      exact hgap w (hws w List.mem_cons_self)

theorem readMembers_list {ms : List RuleMember} {x : Bytes} (h : SpellsList SpellsMember ms x)
    (hms : ∀ m ∈ ms, Loadable m) (rest : Bytes) : ∀ n, ms.length ≤ n → ∀ rule : GateRuleDef,
    readMembers n (x ++ ch '\x7d' :: rest) rule =
      (ms.foldl setMember rule, ch '\x7d' :: rest) := by
  have stop : ∀ n (rule : GateRuleDef),
      readMembers n (ch '\x7d' :: rest) rule = (rule, ch '\x7d' :: rest) := by
    intro n rule
    cases n <;> rfl
  induction h with
  | @last m ws x ws' hws hx hws' =>
      intro n hn rule
      obtain ⟨n, rfl⟩ : ∃ k, n = k + 1 := ⟨n - 1, by simp at hn; omega⟩
      rw [List.append_assoc, List.append_assoc, readMembers_member (hms m List.mem_cons_self) hws hx
        (ends_gap hws' (by decide) rest), skipSpaces_gap hws', skipSpaces_cons (by decide)]
      exact stop n _
  | @more m ms ws x ws' y hws hx hws' _ ih =>
      intro n hn rule
      obtain ⟨n, rfl⟩ : ∃ k, n = k + 1 := ⟨n - 1, by simp at hn; omega⟩
      rw [List.append_assoc, List.append_assoc, List.append_assoc, List.cons_append,
        readMembers_member (hms m List.mem_cons_self) hws hx (ends_gap hws' (by decide) _),
        skipSpaces_gap hws', skipSpaces_cons (by decide)]
      exact ih (fun m' hm' => hms m' (List.mem_cons_of_mem _ hm')) n (by simpa using hn) _

theorem valueOf_cons (m : RuleMember) (ms : List RuleMember) (name : String) :
    valueOf (m :: ms) name = if m.name = ascii name then some m.value else valueOf ms name := by
  unfold valueOf
  rw [List.find?_cons]
  by_cases h : m.name = ascii name <;> simp [h]

theorem valueOf_eq_none {m : RuleMember} {ms : List RuleMember}
    (h : ((m :: ms).map (·.name)).Nodup) {name : String} (hname : m.name = ascii name) :
    valueOf ms name = none := by
  rw [List.map_cons, List.nodup_cons] at h
  unfold valueOf
  rw [Option.map_eq_none_iff, List.find?_eq_none]
  intro m' hm' heq
  apply h.1
  rw [hname, ← of_decide_eq_true heq]
  exact List.mem_map_of_mem hm'

def ruleAfter (rule : GateRuleDef) (ms : List RuleMember) : GateRuleDef where
  fieldKey := ((valueOf ms "field_key").map (·.bytes)).getD rule.fieldKey
  fieldTypeStr := ((valueOf ms "field_type").map (·.bytes)).getD rule.fieldTypeStr
  op := ((valueOf ms "op").map (·.bytes)).getD rule.op
  value := ((valueOf ms "value").map (·.bytes)).getD rule.value
  scenario := ((valueOf ms "scenario").map (·.bytes)).getD rule.scenario
  layer := ((valueOf ms "layer").map fun v => atoi v.bytes).getD rule.layer
  subCategory := ((valueOf ms "sub_category").map (·.bytes)).getD rule.subCategory
  stableKey := ((valueOf ms "stable_key").map (·.bytes)).getD rule.stableKey
  errorHint := ((valueOf ms "error_hint").map (·.bytes)).getD rule.errorHint
  enabled := ((valueOf ms "enabled").map fun v => decide (v.bytes = ascii "true")).getD rule.enabled

def ruleNames : List String :=
  ["field_key", "field_type", "op", "value", "scenario", "sub_category", "stable_key",
    "error_hint", "layer", "enabled"]

theorem foldl_setMember {ms : List RuleMember} (h : (ms.map (·.name)).Nodup) (rule : GateRuleDef) :
    ms.foldl setMember rule = ruleAfter rule ms := by
  induction ms generalizing rule with
  | nil => rfl
  | cons m ms ih =>
      rw [List.foldl_cons, ih (List.nodup_cons.mp h).2]
      by_cases hname : ∃ name ∈ ruleNames, m.name = ascii name
      · obtain ⟨name, hmem, hname⟩ := hname
        have hnone := valueOf_eq_none h hname
        simp only [ruleNames, List.mem_cons, List.not_mem_nil, or_false] at hmem
        rcases hmem with rfl | rfl | rfl | rfl | rfl | rfl | rfl | rfl | rfl | rfl <;>
          simp +decide only [ruleAfter, setMember, valueOf_cons, hname, hnone, if_true, if_false,
            Option.map_none, Option.map_some, Option.getD_none, Option.getD_some]
      · have hother : ∀ name ∈ ruleNames, m.name ≠ ascii name :=
          fun name hmem heq => hname ⟨name, hmem, heq⟩
        simp only [ruleNames, List.forall_mem_cons] at hother
        simp only [ruleAfter, setMember, valueOf_cons, hother, if_false]

theorem mem_of_valueOf {ms : List RuleMember} {name : String} {v : RuleValue}
    (h : valueOf ms name = some v) : ∃ m ∈ ms, m.name = ascii name ∧ m.value = v := by
  obtain ⟨m, hm, hv⟩ := Option.map_eq_some_iff.mp h
  have hname := List.find?_some hm
  exact ⟨m, List.mem_of_find?_eq_some hm, by simpa using hname, hv⟩

theorem ruleAfter_eq {ms : List RuleMember} (h : ∀ m ∈ ms, m.IsTyped) (junk : Int) :
    ruleAfter { layer := junk } ms = ruleOf junk ms := by
  have hlayer : (ruleAfter { layer := junk } ms).layer = (ruleOf junk ms).layer := by
    simp only [ruleAfter, ruleOf]
    cases hv : valueOf ms "layer" with
    | none => rfl
    | some v =>
        obtain ⟨m, hm, hname, rfl⟩ := mem_of_valueOf hv
        obtain ⟨n, -, hn⟩ := (h m hm).2.2.1 hname
        rw [hn]
        exact atoi_decimal n
  have henabled : (ruleAfter { layer := junk } ms).enabled = (ruleOf junk ms).enabled := by
    simp only [ruleAfter, ruleOf]
    cases hv : valueOf ms "enabled" with
    | none => rfl
    | some v =>
        obtain ⟨m, hm, hname, rfl⟩ := mem_of_valueOf hv
        rcases (h m hm).2.2.2 hname with hb | hb <;> rw [hb] <;> rfl
  simp only [ruleAfter, ruleOf, GateRuleDef.mk.injEq, bytesOf, true_and] at hlayer henabled ⊢
  exact ⟨hlayer, henabled⟩

theorem length_le_of_spellsList {α : Type} {P : α → Bytes → Prop} {as : List α} {x : Bytes}
    (hP : ∀ a x, P a x → x ≠ []) (h : SpellsList P as x) : as.length ≤ x.length := by
  induction h with
  | @last a ws x ws' _ ha _ =>
      have hpos := List.length_pos_of_ne_nil (hP a x ha)
      simp only [List.length_append, List.length_singleton]
      omega
  | @more a as ws x ws' y _ ha _ _ ih =>
      have hpos := List.length_pos_of_ne_nil (hP a x ha)
      simp only [List.length_append, List.length_cons]
      omega

theorem readMembers_rule {ms : List RuleMember} {x : Bytes} (h : SpellsRule ms x)
    (hread : ∀ m ∈ ms, m.IsReadable) (junk : Int) (rest : Bytes) :
    ∃ body, x = ch '\x7b' :: body ∧
      readMembers (body ++ rest).length (body ++ rest) { layer := junk } =
        (ruleOf junk ms, ch '\x7d' :: rest) := by
  obtain ⟨hrule, hbody⟩ := h
  cases hbody with
  | @nil ws hws =>
      refine ⟨ws ++ [ch '\x7d'], rfl, ?_⟩
      rw [List.append_assoc, List.singleton_append, List.length_append, List.length_cons,
        ← Nat.add_assoc, readMembers, if_neg (by simp), skipSpaces_gap hws,
        skipSpaces_cons (by decide)]
      dsimp only
      rw [startsWith_cons, if_pos (by decide)]
      rfl
  | @list _ x hlist =>
      have hload : ∀ m ∈ ms, Loadable m :=
        fun m hm => ⟨hrule.values m hm, hrule.typed m hm, hread m hm⟩
      have hne : ∀ m x, SpellsMember m x → x ≠ [] := by
        rintro m x ⟨-, -⟩
        exact List.cons_ne_nil _ _
      have hlen := length_le_of_spellsList hne hlist
      refine ⟨x ++ [ch '\x7d'], rfl, ?_⟩
      rw [List.append_assoc, List.singleton_append, readMembers_list hlist hload rest _
        (by rw [List.length_append]; omega), foldl_setMember hrule.distinct,
        ruleAfter_eq hrule.typed]

theorem readRules_rule {ms : List RuleMember} {ws x ws' : Bytes} (hws : IsGap ws)
    (h : SpellsRule ms x) (hws' : IsGap ws') (hread : ∀ m ∈ ms, m.IsReadable) (junk : Int)
    (n : Nat) {c : UInt8} (hc : isBlank c = false) (rest : Bytes) :
    readRules junk (n + 1) (ws ++ (x ++ (ws' ++ c :: rest))) =
      if (ruleOf junk ms).enabled ∧ (ruleOf junk ms).fieldKey ≠ [] then
        ruleOf junk ms :: readRules junk n (jsonSkipByte (ch ',') (c :: rest))
      else readRules junk n (ws' ++ c :: rest) := by
  obtain ⟨body, rfl, hbody⟩ := readMembers_rule h hread junk (ws' ++ c :: rest)
  have hbrace : ch '\x7b' ≠ ch ']' := by decide
  have hskip : ∀ s, jsonSkipByte (ch '\x7d') (jsonSkipSpaces (ch '\x7d' :: s)) = s := fun _ => rfl
  rw [readRules, skipSpaces_gap hws, List.cons_append, skipSpaces_cons (by decide)]
  simp only [if_neg hbrace, if_true, hbody, hskip, skipSpaces_gap hws', skipSpaces_cons hc]

theorem readRules_close {ws : Bytes} (hws : IsGap ws) (junk : Int) (n : Nat) (rest : Bytes) :
    readRules junk n (ws ++ ch ']' :: rest) = [] := by
  cases n with
  | zero => rfl
  | succ n =>
      rw [readRules, skipSpaces_gap hws, skipSpaces_cons (by decide)]
      exact if_pos rfl

theorem readRules_comma {ws : Bytes} (hws : IsGap ws) (junk : Int) (n : Nat) (rest : Bytes) :
    readRules junk (n + 1) (ws ++ ch ',' :: rest) = readRules junk n rest := by
  have hcomma : ch ',' ≠ ch ']' ∧ ch ',' ≠ ch '\x7b' := by decide
  rw [readRules, skipSpaces_gap hws, skipSpaces_cons (by decide)]
  simp only [if_neg hcomma.1, if_neg hcomma.2]

theorem readRules_list {file : List (List RuleMember)} {x : Bytes}
    (h : SpellsList SpellsRule file x) (hread : ∀ ms ∈ file, ∀ m ∈ ms, m.IsReadable) (junk : Int)
    (rest : Bytes) : ∀ n, x.length < n →
    readRules junk n (x ++ ch ']' :: rest) = activeRules junk file := by
  have active : ∀ ms file, activeRules junk (ms :: file) =
      if (ruleOf junk ms).enabled ∧ (ruleOf junk ms).fieldKey ≠ [] then
        ruleOf junk ms :: activeRules junk file
      else activeRules junk file := by
    intro ms file
    rw [activeRules, List.map_cons, List.filter_cons]
    simp only [decide_eq_true_eq]
    rfl
  induction h with
  | @last ms ws x ws' hws hx hws' =>
      intro n hn
      obtain ⟨n, rfl⟩ : ∃ k, n = k + 1 := ⟨n - 1, by omega⟩
      rw [List.append_assoc, List.append_assoc,
        readRules_rule hws hx hws' (hread ms List.mem_cons_self) junk n (by decide) rest, active]
      have hclose : readRules junk n (jsonSkipByte (ch ',') (ch ']' :: rest)) = [] :=
        readRules_close (show IsGap [] from fun c hc => by cases hc) junk n rest
      rw [readRules_close hws' junk n rest, hclose]
      rfl
  | @more ms file ws x ws' y hws hx hws' hy ih =>
      intro n hn
      obtain ⟨body, hbody, -⟩ := readMembers_rule hx (hread ms List.mem_cons_self) junk []
      have hpos : 0 < x.length := by
        rw [hbody]
        exact Nat.succ_pos _
      simp only [List.length_append, List.length_cons] at hn
      obtain ⟨n, rfl⟩ : ∃ k, n = k + 1 + 1 := ⟨n - 2, by omega⟩
      have hrest := ih fun ms' hms' => hread ms' (List.mem_cons_of_mem _ hms')
      rw [List.append_assoc, List.append_assoc, List.append_assoc, List.cons_append,
        readRules_rule (c := ch ',') hws hx hws' (hread ms List.mem_cons_self) junk (n + 1)
          (by decide), active, readRules_comma hws', hrest n (by omega)]
      have hskip : jsonSkipByte (ch ',') (ch ',' :: (y ++ ch ']' :: rest)) = y ++ ch ']' :: rest :=
        rfl
      rw [hskip, hrest (n + 1) (by omega)]

theorem not_zero_mem_gap {ws : Bytes} (h : IsGap ws) : (0 : UInt8) ∉ ws :=
  fun h0 => absurd (h 0 h0) (by decide)

theorem not_zero_mem_word {t : Bytes} (h : ∀ c ∈ t, c ∈ wordBytes) : (0 : UInt8) ∉ t :=
  fun h0 => absurd (h 0 h0) (by decide)

theorem not_zero_mem_value {m : RuleMember} (hwf : m.value.IsWellFormed) (hread : m.IsReadable) :
    (0 : UInt8) ∉ m.value.text := by
  obtain ⟨-, -, hread⟩ := hread
  cases hv : m.value with
  | string val text =>
      rw [hv] at hwf
      have hquote : (0 : UInt8) ≠ ch '"' := by decide
      simp [RuleValue.text, hquote, not_zero_mem_jsonString hwf]
  | nat n => exact not_zero_mem_word (mem_wordBytes_of_decimal n)
  | bare text =>
      rw [hv] at hwf
      exact not_zero_mem_word (mem_wordBytes_of_bare hwf)
  | nested text =>
      rw [hv] at hread
      rcases hread with harray | hobject
      · exact (enclosed_nested (Or.inl rfl) (fun _ => rfl) (fun h => h.elim) harray).passes.1
      · exact (enclosed_nested (Or.inr rfl) (fun h => h.elim) (fun _ => rfl) hobject).passes.1

theorem not_zero_mem_list {α : Type} {P : α → Bytes → Prop} {as : List α} {x : Bytes}
    (h : SpellsList P as x) (hP : ∀ a ∈ as, ∀ x, P a x → (0 : UInt8) ∉ x) : (0 : UInt8) ∉ x := by
  have hcomma : (0 : UInt8) ≠ ch ',' := by decide
  induction h with
  | @last a ws x ws' hws ha hws' =>
      simp [not_zero_mem_gap hws, hP a List.mem_cons_self x ha, not_zero_mem_gap hws']
  | @more a as ws x ws' y hws ha hws' _ ih =>
      have htail := ih fun a' ha' => hP a' (List.mem_cons_of_mem _ ha')
      simp [not_zero_mem_gap hws, hP a List.mem_cons_self x ha, not_zero_mem_gap hws', hcomma,
        htail]

theorem not_zero_mem_bracketed {α : Type} {P : α → Bytes → Prop} {as : List α} {x : Bytes}
    {opening closing : UInt8} (h : SpellsBracketed opening closing P as x)
    (hbrackets : (0 : UInt8) ≠ opening ∧ (0 : UInt8) ≠ closing)
    (hP : ∀ a ∈ as, ∀ x, P a x → (0 : UInt8) ∉ x) : (0 : UInt8) ∉ x := by
  cases h with
  | nil hws => simp [hbrackets, not_zero_mem_gap hws]
  | list hlist => simp [hbrackets, not_zero_mem_list hlist hP]

theorem not_zero_mem_rule {ms : List RuleMember} {x : Bytes} (h : SpellsRule ms x)
    (hread : ∀ m ∈ ms, m.IsReadable) : (0 : UInt8) ∉ x := by
  have hbytes : (0 : UInt8) ≠ ch '"' ∧ (0 : UInt8) ≠ ch ':' := by decide
  apply not_zero_mem_bracketed h.2 (by decide)
  rintro m hm x ⟨hws, hws'⟩
  have hkey := not_zero_mem_jsonString (h.1.keys m hm)
  have hvalue := not_zero_mem_value (h.1.values m hm) (hread m hm)
  simp [hbytes, hkey, hvalue, not_zero_mem_gap hws, not_zero_mem_gap hws']

/-- **A file that the loader can read gives its active rules, in order.** -/
theorem loadGateRules_eq {file : List (List RuleMember)} {content : Bytes}
    (h : SpellsFile file content) (hread : ∀ ms ∈ file, ∀ m ∈ ms, m.IsReadable) (junk : Int) :
    loadGateRules junk content = activeRules junk file := by
  cases h with
  | @mk ws x ws' hws hx hws' =>
      have hzero : (0 : UInt8) ∉ ws ++ (x ++ ws') := by
        have hrules := not_zero_mem_bracketed hx (by decide) fun ms hms y hy =>
          not_zero_mem_rule hy (hread ms hms)
        simp [not_zero_mem_gap hws, hrules, not_zero_mem_gap hws']
      rw [loadGateRules, cstr_eq_self hzero, skipSpaces_gap hws]
      cases hx with
      | @nil gap hgap =>
          rw [List.cons_append, skipSpaces_cons (by decide), List.append_assoc]
          exact readRules_close hgap junk _ ws'
      | @list _ x hlist =>
          rw [List.cons_append, skipSpaces_cons (by decide), List.append_assoc]
          apply readRules_list hlist hread junk ws'
          simp only [List.length_append, List.length_singleton]
          omega

end BlessStar.Gate.Proofs.RuleLoading
