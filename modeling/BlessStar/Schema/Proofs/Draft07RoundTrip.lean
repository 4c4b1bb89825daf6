import BlessStar.Gate.Proofs.JsonRoundTrip
import BlessStar.Schema.Draft07

/-!
# Reading a document back

The reader takes the text of a plain value to the end of the token behind it.  The
id survives that only where it is cut in two by quotes of its own, and then the
reader stops in the middle of it, in front of the fields.
-/

namespace BlessStar.Schema

open Lib.ByteString
open Gate (Asparse CNumber asparseAdvance ch isBlank lex lexToken scanString skipComma)

inductive StringBody : Bytes → Prop
  | nil : StringBody []
  | plain {c : UInt8} {s : Bytes} :
      c ≠ ch '"' → c ≠ ch '\\' → StringBody s → StringBody (c :: s)
  | escaped {s : Bytes} (c : UInt8) : StringBody s → StringBody (ch '\\' :: c :: s)

/-- Two strings with white space between them, without the first quote and the last. -/
def TwoStrings (s : Bytes) : Prop :=
  ∃ u ws v, s = u ++ ch '"' :: (ws ++ ch '"' :: v) ∧ StringBody u ∧
    (∀ c ∈ ws, isBlank c = true) ∧ StringBody v

namespace Proofs.Draft07RoundTrip

open Gate Gate.Proofs.TokenReading Gate.Proofs.JsonReading

theorem scanString_body {body : Bytes} (h : StringBody body) (rest : Bytes) :
    ∃ val, scanString (body ++ ch '"' :: rest) = some (val, rest) := by
  induction h with
  | nil => exact ⟨[], scanString_quote rest⟩
  | @plain c s hquote hslash _ ih =>
      obtain ⟨val, hval⟩ := ih
      exact ⟨c :: val, by rw [List.cons_append, scanString_raw hquote hslash, hval]; rfl⟩
  | @escaped s c _ ih =>
      obtain ⟨val, hval⟩ := ih
      refine ⟨unescape c :: val, ?_⟩
      rw [List.cons_append, List.cons_append, scanString_escape, hval]
      rfl

theorem body_of_scanString (s : Bytes) :
    ∀ {val rest : Bytes}, scanString s = some (val, rest) →
      ∃ body, s = body ++ ch '"' :: rest ∧ StringBody body := by
  induction s using scanString.induct with
  | case1 =>
      intro val rest h
      cases h
  | case2 s =>
      intro val rest h
      rw [scanString_quote] at h
      cases h
      exact ⟨[], rfl, .nil⟩
  | case3 =>
      intro val rest h
      rw [scanString, if_neg (by decide), if_pos rfl] at h
      cases h
  | case4 e s _ ih =>
      intro val rest h
      rw [scanString_escape, Option.map_eq_some_iff] at h
      obtain ⟨⟨val', rest'⟩, hscan, heq⟩ := h
      obtain ⟨body, hs, hbody⟩ := ih hscan
      cases heq
      exact ⟨ch '\\' :: e :: body, by rw [hs]; rfl, .escaped e hbody⟩
  | case5 c s hquote hslash ih =>
      intro val rest h
      rw [scanString_raw hquote hslash, Option.map_eq_some_iff] at h
      obtain ⟨⟨val', rest'⟩, hscan, heq⟩ := h
      obtain ⟨body, hs, hbody⟩ := ih hscan
      cases heq
      exact ⟨c :: body, by rw [hs]; rfl, .plain hquote hslash hbody⟩

section

variable {D : CNumber Float}

theorem lexToken_splits (hnum : ∀ s : Bytes, ch '"' ∉ s.take (D.strtod s).2) (c : UInt8)
    (rest : Bytes) :
    ∃ x, c :: rest = x ++ (lexToken D.toCDouble c rest).rest ∧ (ch '"' ∈ x → c = ch '"') := by
  have single : ∀ d, d ≠ ch '"' → c = d →
      ∃ x, c :: rest = x ++ rest ∧ (ch '"' ∈ x → c = ch '"') := by
    rintro d hd rfl
    exact ⟨[c], rfl, fun h => (List.mem_singleton.mp h).symm⟩
  have word : ∀ n (w : String), ch '"' ∉ ascii w → (c :: rest).take n = ascii w →
      ∃ x, c :: rest = x ++ (c :: rest).drop n ∧ (ch '"' ∈ x → c = ch '"') := by
    intro n w hw htake
    refine ⟨ascii w, ?_, fun h => absurd h hw⟩
    rw [← htake, List.take_append_drop]
  have stop : ∃ x, c :: rest = x ++ (c :: rest) ∧ (ch '"' ∈ x → c = ch '"') :=
    ⟨[], rfl, fun h => by cases h⟩
  unfold lexToken
  by_cases h1 : c = ch '\x7b'
  · simpa only [if_pos h1] using single _ (by decide) h1
  by_cases h2 : c = ch '\x7d'
  · simpa only [if_neg h1, if_pos h2] using single _ (by decide) h2
  by_cases h3 : c = ch '['
  · simpa only [if_neg h1, if_neg h2, if_pos h3] using single _ (by decide) h3
  by_cases h4 : c = ch ']'
  · simpa only [if_neg h1, if_neg h2, if_neg h3, if_pos h4] using single _ (by decide) h4
  by_cases h5 : c = ch ','
  · simpa only [if_neg h1, if_neg h2, if_neg h3, if_neg h4, if_pos h5] using
      single _ (by decide) h5
  by_cases h6 : c = ch ':'
  · simpa only [if_neg h1, if_neg h2, if_neg h3, if_neg h4, if_neg h5, if_pos h6] using
      single _ (by decide) h6
  simp only [if_neg h1, if_neg h2, if_neg h3, if_neg h4, if_neg h5, if_neg h6]
  by_cases h7 : c = ch '"'
  · rw [if_pos h7]
    cases hscan : scanString rest with
    | none => exact ⟨c :: rest, (List.append_nil _).symm, fun _ => h7⟩
    | some r =>
        obtain ⟨body, hbody, -⟩ := body_of_scanString rest hscan
        refine ⟨c :: (body ++ [ch '"']), ?_, fun _ => h7⟩
        rw [hbody]
        simp
  rw [if_neg h7]
  by_cases h8 : (c :: rest).take 4 = ascii "true"
  · simpa only [if_pos h8] using word 4 _ (by decide) h8
  by_cases h9 : (c :: rest).take 5 = ascii "false"
  · simpa only [if_neg h8, if_pos h9] using word 5 _ (by decide) h9
  by_cases h10 : (c :: rest).take 4 = ascii "null"
  · simpa only [if_neg h8, if_neg h9, if_pos h10] using word 4 _ (by decide) h10
  simp only [if_neg h8, if_neg h9, if_neg h10]
  split
  · split
    · refine ⟨_, (List.take_append_drop _ _).symm, fun h => absurd h (hnum _)⟩
    · exact stop
  · exact stop

theorem lex_suffix (hnum : ∀ s : Bytes, ch '"' ∉ s.take (D.strtod s).2) (text : Bytes) :
    (lex D.toCDouble text).rest <:+ text := by
  have hdrop := List.dropWhile_suffix (l := text) isBlank
  unfold lex
  cases hd : text.dropWhile isBlank with
  | nil => exact List.nil_suffix
  | cons c rest =>
      rw [hd] at hdrop
      obtain ⟨x, hx, -⟩ := lexToken_splits hnum c rest
      exact List.IsSuffix.trans ⟨x, hx.symm⟩ hdrop

theorem lexToken_quote (rest : Bytes) :
    lexToken D.toCDouble (ch '"') rest =
      match scanString rest with
      | none => ⟨.error, []⟩
      | some (val, rest) => ⟨.string val, rest⟩ := by
  have hne : ch '"' ≠ ch '\x7b' ∧ ch '"' ≠ ch '\x7d' ∧ ch '"' ≠ ch '[' ∧ ch '"' ≠ ch ']' ∧
      ch '"' ≠ ch ',' ∧ ch '"' ≠ ch ':' := by decide
  obtain ⟨h1, h2, h3, h4, h5, h6⟩ := hne
  unfold lexToken
  exact (if_neg h1).trans <| (if_neg h2).trans <| (if_neg h3).trans <| (if_neg h4).trans <|
    (if_neg h5).trans <| (if_neg h6).trans (if_pos rfl)

theorem scanString_of_lexToken {rest : Bytes} {c : UInt8} {t : Bytes}
    (h : (lexToken D.toCDouble (ch '"') rest).rest = c :: t) :
    ∃ val, scanString rest = some (val, c :: t) := by
  rw [lexToken_quote] at h
  cases hscan : scanString rest with
  | none =>
      rw [hscan] at h
      cases h
  | some r =>
      rw [hscan] at h
      exact ⟨r.1, by rw [← h]⟩

def secondToken (D : CNumber Float) (text : Bytes) : Asparse Float :=
  lex D.toCDouble (lex D.toCDouble text).rest

theorem secondToken_of_twoStrings {s : Bytes} (h : TwoStrings s) (t : Bytes) :
    ∃ val, secondToken D (ch '"' :: (s ++ ch '"' :: t)) = ⟨.string val, t⟩ := by
  obtain ⟨u, ws, v, rfl, hu, hws, hv⟩ := h
  obtain ⟨val, hval⟩ := scanString_body hu (ws ++ ch '"' :: (v ++ ch '"' :: t))
  obtain ⟨val', hval'⟩ := scanString_body hv t
  refine ⟨val', ?_⟩
  have hfirst : lex D.toCDouble (ch '"' ::
      ((u ++ ch '"' :: (ws ++ ch '"' :: v)) ++ ch '"' :: t)) =
      ⟨.string val, ws ++ ch '"' :: (v ++ ch '"' :: t)⟩ := by
    have happ : (u ++ ch '"' :: (ws ++ ch '"' :: v)) ++ ch '"' :: t =
        u ++ ch '"' :: (ws ++ ch '"' :: (v ++ ch '"' :: t)) := by simp
    rw [happ, lex_string hval]
  have hblank : lex D.toCDouble (ws ++ ch '"' :: (v ++ ch '"' :: t)) =
      lex D.toCDouble (ch '"' :: (v ++ ch '"' :: t)) := by
    rw [lex, List.dropWhile_append_of_pos hws, lex]
  rw [secondToken, hfirst, hblank, lex_string hval']

theorem twoStrings_of_token (hnum : ∀ s : Bytes, ch '"' ∉ s.take (D.strtod s).2)
    {s t u ws rest : Bytes} {c : UInt8} (hu : StringBody u) (hws : ∀ b ∈ ws, isBlank b = true)
    (hsplit : u ++ ch '"' :: (ws ++ c :: rest) = s ++ ch '"' :: ch ',' :: t)
    (hrest : (lexToken D.toCDouble c rest).rest = ch ',' :: t) : TwoStrings s := by
  obtain ⟨x, hx, hquote⟩ := lexToken_splits hnum c rest
  rw [hrest] at hx
  cases x using List.reverseRecOn with
  | nil =>
      -- the comma, which the next token takes
      injection hx with hc ht
      rw [hc, ht] at hrest
      replace hrest : t = ch ',' :: t := hrest
      exact absurd (congrArg List.length hrest) (by simp)
  | append_singleton x q =>
      have happ : (u ++ ch '"' :: (ws ++ x)) ++ [q] ++ ch ',' :: t =
          s ++ [ch '"'] ++ ch ',' :: t := by
        rw [List.append_assoc s, List.singleton_append, ← hsplit, hx]
        simp
      obtain ⟨hs, hq⟩ := List.append_inj' (List.append_cancel_right happ) rfl
      injection hq with hq
      have hc : c = ch '"' := hquote (by simp [hq])
      rw [hc] at hx hrest
      obtain ⟨val, hscan⟩ := scanString_of_lexToken hrest
      cases x with
      | nil =>
          injection hx with _ hrest'
          replace hrest' : rest = ch ',' :: t := hrest'
          have hlt := scanString_length hscan
          rw [hrest'] at hlt
          omega
      | cons d v =>
          injection hx with hd hrest'
          replace hrest' : rest = v ++ [q] ++ ch ',' :: t := hrest'
          obtain ⟨v', hv, hbody⟩ := body_of_scanString _ hscan
          have hsame : v' = v := by
            rw [hv, hq, List.append_assoc] at hrest'
            exact List.append_cancel_right hrest'
          exact ⟨u, ws, v, by rw [← hs, ← hd], hu, hws, hsame ▸ hbody⟩

theorem twoStrings_of_secondToken (hnum : ∀ s : Bytes, ch '"' ∉ s.take (D.strtod s).2)
    {s t : Bytes}
    (h : (secondToken D (ch '"' :: (s ++ ch '"' :: ch ',' :: t))).rest.length = t.length + 1) :
    TwoStrings s := by
  have hrest : (secondToken D (ch '"' :: (s ++ ch '"' :: ch ',' :: t))).rest = ch ',' :: t := by
    have hsuf : (secondToken D (ch '"' :: (s ++ ch '"' :: ch ',' :: t))).rest <:+
        ch '"' :: (s ++ ch '"' :: ch ',' :: t) :=
      (lex_suffix hnum _).trans (lex_suffix hnum _)
    have htail : ch ',' :: t <:+ ch '"' :: (s ++ ch '"' :: ch ',' :: t) :=
      ⟨ch '"' :: (s ++ [ch '"']), by simp⟩
    exact (List.suffix_of_suffix_length_le hsuf htail (by simp [h])).eq_of_length (by simp [h])
  have hfirst : (lex D.toCDouble (ch '"' :: (s ++ ch '"' :: ch ',' :: t))).rest =
      (lexToken D.toCDouble (ch '"') (s ++ ch '"' :: ch ',' :: t)).rest := rfl
  rw [secondToken, hfirst, lexToken_quote] at hrest
  cases hscan : scanString (s ++ ch '"' :: ch ',' :: t) with
  | none =>
      rw [hscan] at hrest
      cases hrest
  | some r =>
      rw [hscan] at hrest
      replace hrest : (lex D.toCDouble r.2).rest = ch ',' :: t := hrest
      obtain ⟨u, hu, hbody⟩ := body_of_scanString _ hscan
      have hblank := List.takeWhile_append_dropWhile (p := isBlank) (l := r.2)
      unfold lex at hrest
      cases hd : r.2.dropWhile isBlank with
      | nil =>
          rw [hd] at hrest
          cases hrest
      | cons c rest =>
          rw [hd] at hrest hblank
          replace hrest : (lexToken D.toCDouble c rest).rest = ch ',' :: t := hrest
          have hsplit := hu.symm
          rw [← hblank] at hsplit
          exact twoStrings_of_token hnum hbody (fun b hb => List.mem_takeWhile_imp hb) hsplit hrest

theorem dictValue_quote {colon : Asparse Float} {s : Bytes} (h : colon.rest = ch '"' :: s) :
    dictValue D colon =
      (some (slice (ch '"' :: s) (secondToken D (ch '"' :: s)).rest),
        secondToken D (ch '"' :: s)) := by
  have hstart : (ch '"' :: s).dropWhile isBlank = ch '"' :: s := rfl
  have htok : lex D.toCDouble (ch '"' :: s) = lexToken D.toCDouble (ch '"') s := rfl
  simp only [dictValue, asparseAdvance, h, hstart, secondToken]
  cases hscan : scanString s <;> simp [htok, lexToken_quote, hscan]

theorem find_parseDictLoop {key : Bytes} {e : Bytes × Option Bytes} (n : Nat)
    {p : Asparse Float} {d : JsonDict} (h : d.find? (·.1 = key) = some e) :
    (parseDictLoop D n p d).find? (·.1 = key) = some e := by
  induction n generalizing p d with
  | zero => exact h
  | succ n ih =>
      rw [parseDictLoop]
      split
      · dsimp only
        split
        · apply ih
          unfold dictAdd
          split
          · exact h
          · rw [List.find?_append, h, Option.some_or]
        · exact h
      · exact h

theorem parseDictLoop_quote {n : Nat} {key s : Bytes} {d : JsonDict} {p : Asparse Float}
    (htok : p.tok = .string key) (hrest : p.rest = ch ':' :: ch '"' :: s) :
    parseDictLoop D (n + 1) p d =
      parseDictLoop D n
        (skipComma D.toCDouble (secondToken D (ch '"' :: s)))
        (dictAdd d key
          (some (slice (ch '"' :: s)
            (secondToken D (ch '"' :: s)).rest))) := by
  have hcolon : asparseAdvance D.toCDouble p = ⟨.colon, ch '"' :: s⟩ := by
    rw [asparseAdvance, hrest]
    rfl
  have hval : dictValue D ⟨.colon, ch '"' :: s⟩ = _ := dictValue_quote rfl
  simp only [parseDictLoop, htok, hcolon, Astok.isColon, if_true, hval]

/-- The value of `$schema`. -/
def schemaUri : Bytes := ascii "http://json-schema.org/draft-07/schema#"

theorem draft07Head_append (x : Bytes) :
    draft07Head ++ x =
      ch '\x7b' :: 10 :: ch '"' :: (ascii "$schema" ++ ch '"' :: ch ':' :: ch '"' ::
        (schemaUri ++ ch '"' :: ch ',' :: 10 :: ch '"' ::
          (ascii "$id" ++ ch '"' :: ch ':' :: ch '"' :: x))) := by
  rfl

theorem parseDictInto_head (s t : Bytes) :
    ∃ n schema, parseDictInto D (lex D.toCDouble (draft07Head ++ (s ++ ch '"' :: t))) =
      parseDictLoop D (n + 1) (skipComma D.toCDouble (secondToken D (ch '"' :: (s ++ ch '"' :: t))))
        [(ascii "$schema", schema),
          (ascii "$id", some (slice (ch '"' :: (s ++ ch '"' :: t))
            (secondToken D (ch '"' :: (s ++ ch '"' :: t))).rest))] := by
  have key : ∀ (k : String) (x : Bytes), (∀ c ∈ ascii k, c ≠ ch '"' ∧ c ≠ ch '\\') →
      lex D.toCDouble (10 :: ch '"' :: (ascii k ++ ch '"' :: x)) = ⟨.string (ascii k), x⟩ :=
    fun k x hk => lex_string (scanString_plain hk x)
  have huri : ∀ x,
      secondToken D (ch '"' :: (schemaUri ++ ch '"' :: ch ',' :: x)) = ⟨.comma, x⟩ := by
    intro x
    rw [secondToken, lex_string (scanString_plain (List.all_iff_forall_prop.mp (by decide)) _)]
    rfl
  rw [draft07Head_append]
  have hopen : ∀ x : Bytes, parseDictInto D (lex D.toCDouble (ch '\x7b' :: 10 :: ch '"' :: x)) =
      parseDictLoop D (x.length + 1 + 1 + 1) (lex D.toCDouble (10 :: ch '"' :: x)) [] :=
    fun _ => rfl
  rw [hopen, key _ _ (List.all_iff_forall_prop.mp (by decide)), parseDictLoop_quote rfl rfl, huri]
  have hcomma : ∀ x : Bytes, skipComma D.toCDouble ⟨.comma, x⟩ = lex D.toCDouble x := fun _ => rfl
  rw [hcomma, key _ _ (List.all_iff_forall_prop.mp (by decide)), parseDictLoop_quote rfl rfl]
  exact ⟨_, _, rfl⟩

theorem secondToken_length (hnum : ∀ s : Bytes, ch '"' ∉ s.take (D.strtod s).2) {s : Bytes}
    (hs : s ≠ []) : (secondToken D (ch '"' :: s)).rest.length < s.length := by
  have hfirst : (lex D.toCDouble (ch '"' :: s)).rest = (lexToken D.toCDouble (ch '"') s).rest := rfl
  rw [secondToken, hfirst, lexToken_quote]
  cases hscan : scanString s with
  | none => exact List.length_pos_of_ne_nil hs
  | some r =>
      have hle := (lex_suffix hnum r.2).length_le
      have hlt := scanString_length hscan
      show (lex D.toCDouble r.2).rest.length < s.length
      omega

theorem twoStrings_of_extract (hnum : ∀ s : Bytes, ch '"' ∉ s.take (D.strtod s).2) {s t : Bytes}
    (h : (extractQuoted (slice (ch '"' :: (s ++ ch '"' :: ch ',' :: t))
      (secondToken D (ch '"' :: (s ++ ch '"' :: ch ',' :: t))).rest)).getD (ascii "unknown") = s) :
    TwoStrings s := by
  apply twoStrings_of_secondToken (t := t) hnum
  have hne : s ++ ch '"' :: ch ',' :: t ≠ [] := by simp
  have hlen := secondToken_length hnum hne
  generalize (secondToken D (ch '"' :: (s ++ ch '"' :: ch ',' :: t))).rest = r at h hlen ⊢
  obtain ⟨k, hk⟩ : ∃ k, (ch '"' :: (s ++ ch '"' :: ch ',' :: t)).length - r.length = k + 2 :=
    ⟨(s ++ ch '"' :: ch ',' :: t).length - r.length - 1, by rw [List.length_cons]; omega⟩
  have htake : (s ++ ch '"' :: ch ',' :: t).take (k + 1) ≠ [] := by
    simpa only [ne_eq, List.take_eq_nil_iff, Nat.succ_ne_zero, false_or] using hne
  have hs := congrArg List.length h
  rw [slice, hk, List.take_succ_cons, extractQuoted, if_pos ⟨rfl, htake⟩, Option.getD_some,
    List.length_dropLast, List.length_take] at hs
  simp only [List.length_append, List.length_cons] at hlen hk hs
  omega

def headDict (schema : Option Bytes) (id : Bytes) : JsonDict :=
  [(ascii "$schema", schema), (ascii "$id", some id)]

theorem fromDraft07_toDraft07 (entry : SchemaEntry) :
    ∃ t n schema,
      let id := ch '"' :: (entry.schemaId ++ ch '"' :: ch ',' :: t)
      fromDraft07 D (toDraft07 D entry) =
        some (readEntry D (parseDictLoop D (n + 1) (skipComma D.toCDouble (secondToken D id))
          (headDict schema (slice id (secondToken D id).rest)))) := by
  obtain ⟨t, ht⟩ : ∃ t, draft07Tail D entry = ch '"' :: ch ',' :: t := ⟨_, rfl⟩
  obtain ⟨n, schema, hroot⟩ := parseDictInto_head (D := D) entry.schemaId (ch ',' :: t)
  have hopen : (lex D.toCDouble (draft07Head ++
      (entry.schemaId ++ ch '"' :: ch ',' :: t))).tok.isLbrace = true := by
    rw [draft07Head_append]
    rfl
  refine ⟨t, n, schema, ?_⟩
  rw [toDraft07, ht, List.append_assoc, fromDraft07, if_pos hopen, hroot]
  rfl

theorem find_headDict (schema : Option Bytes) (id : Bytes) :
    (headDict schema id).find? (·.1 = ascii "$id") = some (ascii "$id", some id) := by
  have hne : ascii "$schema" ≠ ascii "$id" := by decide
  simp [headDict, hne]

theorem schemaId_readEntry (n : Nat) (p : Asparse Float) (schema : Option Bytes) (id : Bytes) :
    (readEntry D (parseDictLoop D n p (headDict schema id))).schemaId =
      (extractQuoted id).getD (ascii "unknown") := by
  rw [readEntry, dictGet, find_parseDictLoop n (find_headDict schema id)]
  rfl

theorem twoStrings_of_readBack (hnum : ∀ s : Bytes, ch '"' ∉ s.take (D.strtod s).2)
    {entry back : SchemaEntry} (hback : fromDraft07 D (toDraft07 D entry) = some back)
    (hid : back.schemaId = entry.schemaId) : TwoStrings entry.schemaId := by
  obtain ⟨t, n, schema, heq⟩ := fromDraft07_toDraft07 (D := D) entry
  rw [heq] at hback
  injection hback with hback
  rw [← hback, schemaId_readEntry] at hid
  exact twoStrings_of_extract hnum hid

theorem readBack_of_twoStrings {entry : SchemaEntry} (h : TwoStrings entry.schemaId) :
    fromDraft07 D (toDraft07 D entry) =
      some { schemaId := entry.schemaId, version := ascii "1.0", rootFields := [] } := by
  obtain ⟨t, n, schema, heq⟩ := fromDraft07_toDraft07 (D := D) entry
  obtain ⟨val, hval⟩ := secondToken_of_twoStrings (D := D) h (ch ',' :: t)
  have hslice : slice (ch '"' :: (entry.schemaId ++ ch '"' :: ch ',' :: t)) (ch ',' :: t) =
      ch '"' :: (entry.schemaId ++ [ch '"']) := by
    have happ : ch '"' :: (entry.schemaId ++ ch '"' :: ch ',' :: t) =
        ch '"' :: (entry.schemaId ++ [ch '"']) ++ ch ',' :: t := by simp
    rw [slice, happ, List.length_append, Nat.add_sub_cancel, List.take_left']
    rfl
  have hextract : extractQuoted (ch '"' :: (entry.schemaId ++ [ch '"'])) = some entry.schemaId := by
    simp [extractQuoted]
  -- the comma behind the second string is no colon
  have hstop : ∀ d, parseDictLoop D (n + 1) ⟨.string val, ch ',' :: t⟩ d = d := fun _ => rfl
  have hcomma : skipComma D.toCDouble ⟨.string val, ch ',' :: t⟩ = ⟨.string val, ch ',' :: t⟩ := rfl
  have hprops : ∀ id, dictGet (headDict schema id) (ascii "properties") = none := by
    intro id
    have hne : ascii "$schema" ≠ ascii "properties" ∧ ascii "$id" ≠ ascii "properties" := by decide
    simp [dictGet, headDict, hne]
  rw [heq, hval, hcomma, hstop, hslice, readEntry, hprops, dictGet, find_headDict]
  simp [hextract]

end

end Proofs.Draft07RoundTrip

open Proofs.Draft07RoundTrip

/-- **An entry survives its Draft-07 document exactly if it has no fields, the version
1.0, and an id that its own quotes cut in two.** -/
theorem draft07_round_trip_iff (D : CNumber Float)
    (hnum : ∀ s : Bytes, ch '"' ∉ s.take (D.strtod s).2) (entry : SchemaEntry) :
    RoundTrips D entry ↔
      entry.version = ascii "1.0" ∧ entry.rootFields = [] ∧ TwoStrings entry.schemaId := by
  constructor
  · rintro ⟨back, hback, hid, hversion, hfields⟩
    have htwo := twoStrings_of_readBack hnum hback hid
    rw [readBack_of_twoStrings htwo] at hback
    injection hback with hback
    rw [← hback] at hversion hfields
    exact ⟨hversion.symm, hfields.symm, htwo⟩
  · rintro ⟨hversion, hfields, htwo⟩
    exact ⟨_, readBack_of_twoStrings htwo, rfl, hversion.symm, hfields.symm⟩

/-- Doubles that are read from and printed as whole numbers without a sign. -/
def wholeFloats : CNumber Float where
  strtod s :=
    let digits := digitsPrefix 10 s
    (Float.ofNat (digits.foldl (fun acc d => acc * 10 + d) 0), digits.length)
  formatG x := decimal x.toUInt64.toNat
  lt a b := a < b
  le a b := a ≤ b
  toInt x := x.toUInt64.toNat

theorem draft07_round_trip_split_id :
    RoundTrips wholeFloats
      { schemaId := ascii "a\"\"b", version := ascii "1.0", rootFields := [] } := by
  refine (draft07_round_trip_iff wholeFloats
    Gate.Proofs.JsonRoundTrip.quote_not_in_digits _).mpr ⟨rfl, rfl, ?_⟩
  exact ⟨ascii "a", [], ascii "b", rfl, .plain (by decide) (by decide) .nil, by simp,
    .plain (by decide) (by decide) .nil⟩

/-- The id `a` comes back with the quote behind it. -/
theorem draft07_id_gets_quote :
    ¬RoundTrips wholeFloats
      { schemaId := ascii "a", version := ascii "1.0", rootFields := [] } := by
  rintro ⟨back, hback, hid, -⟩
  obtain ⟨u, ws, v, hs, -⟩ :=
    twoStrings_of_readBack Gate.Proofs.JsonRoundTrip.quote_not_in_digits hback hid
  have hquote : ch '"' ∈ ascii "a" := by
    rw [show ascii "a" = u ++ ch '"' :: (ws ++ ch '"' :: v) from hs]
    simp
  exact absurd hquote (by decide)

end BlessStar.Schema
