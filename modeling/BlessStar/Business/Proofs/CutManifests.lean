import BlessStar.Business.Proofs.CutLoops

/-!
# Manifests without their last brace

Every section of the loader tracks, so a manifest that is loaded is also loaded when its
last brace is missing.
-/

namespace BlessStar.Business

open Lib.ByteString
open Lib.JsonText hiding ch
open Gate (ch atoi)

theorem tracks_raise : Tracks Follows raise where
  sticky _ _ := rfl
  shrinks _ := Nat.le_refl _
  follows _ _ _ := .inl rfl

theorem tracks_hasError : Tracks Follows hasError where
  sticky _ h := h
  shrinks _ := Nat.le_refl _
  follows _ _ h := .inr ⟨h.error.1.trans h.error.2.symm, h⟩

theorem tracks_setString {α : Type} (set : Bytes → α → α) (a : α) :
    Tracks Follows (setString set a) := by
  apply tracks_jparseString.bind
  intro v
  cases v with
  | none => exact .pure a
  | some v => exact .pure (set v a)

theorem tracks_fieldMember (k : Bytes) (f : ManifestField) : Tracks Inside (fieldMember k f) := by
  apply tracks_jparseValueStr.bind
  intro v
  cases v with
  | none => exact .pure f
  | some v => exact .pure _

theorem tracks_fieldItem : Tracks Follows fieldItem := by
  apply (tracks_jobject tracks_fieldMember {}).bind
  rintro ⟨f, aborted⟩
  cases aborted with
  | true => exact .pure none
  | false =>
      apply tracks_hasError.bind
      intro e
      show Tracks Follows (if !e && f.key = [] then _ else _)
      split
      · exact tracks_raise.bind fun _ => .pure none
      · exact .pure (some f)

theorem tracks_parseFields (m : Manifest) : Tracks Follows (parseFields m) := by
  apply (tracks_jmatch (by decide)).bind
  intro opened
  cases opened with
  | false => exact tracks_raise.bind fun _ => .pure m
  | true =>
      apply (tracks_jobjects tracks_fieldItem).bind
      intro fields
      cases fields with
      | none => exact .pure m
      | some fields => exact .pure { m with fields := some fields }

theorem tracks_parseConfigLabels : Tracks Follows parseConfigLabels := by
  apply (tracks_jmatch (by decide)).bind
  intro opened
  cases opened with
  | false => exact tracks_jskipValue.bind fun _ => .pure none
  | true =>
      apply (tracks_jobject (fun k labels => ?_) []).bind
      · exact fun r => .pure (some r.1)
      · exact (tracks_jparseString.bind fun v => .pure _).inside

theorem tracks_parseObjects {α : Type} {member : Bytes → α → Reader α}
    (hm : ∀ k a, Tracks Inside (member k a)) (new : α) :
    Tracks Follows (parseObjects member new) := by
  apply (tracks_jmatch (by decide)).bind
  intro opened
  cases opened with
  | false => exact tracks_jskipValue.bind fun _ => .pure none
  | true => exact tracks_jobjects ((tracks_jobject hm new).bind fun r => .pure (some r.1))

theorem tracks_skipMember {α : Type} (a : α) :
    Tracks Follows (do jskipValue; return a : Reader α) :=
  tracks_jskipValue.bind fun _ => .pure a

theorem tracks_stringsMember {α : Type} (set : List Bytes → α) (a : α) :
    Tracks Follows (do
      match ← jstrings with
      | none => return a
      | some keys => return set keys : Reader α) := by
  apply tracks_jstrings.bind
  intro keys
  cases keys with
  | none => exact .pure a
  | some keys => exact .pure (set keys)

theorem tracks_invMember (k : Bytes) (e : InvEntry) : Tracks Inside (invMember k e) := by
  unfold invMember
  apply Tracks.inside
  split
  · exact tracks_setString _ e
  · split
    · exact tracks_stringsMember (fun keys => { e with configKeys := keys }) e
    · exact tracks_skipMember e

theorem tracks_shardMember (k : Bytes) (s : DomainShard) : Tracks Inside (shardMember k s) := by
  unfold shardMember
  apply Tracks.inside
  split
  · exact tracks_setString _ s
  · split
    · exact tracks_setString _ s
    · split
      · exact tracks_stringsMember (fun keys => { s with keywords := keys }) s
      · exact tracks_skipMember s

theorem tracks_routeMember (k : Bytes) (r : SkillRoute) : Tracks Inside (routeMember k r) := by
  unfold routeMember
  split
  · exact (tracks_setString _ r).inside
  · split
    · exact (tracks_setString _ r).inside
    · split
      · apply tracks_jparseValueStr.bind
        intro v
        cases v with
        | none => exact .pure r
        | some v => exact .pure { r with priority := atoi v }
      · split
        · exact (tracks_stringsMember (fun tools => { r with toolChain := tools }) r).inside
        · exact (tracks_skipMember r).inside

theorem tracks_aiMember (k : Bytes) (d : AiData) : Tracks Inside (aiMember k d) := by
  unfold aiMember
  apply Tracks.inside
  split
  · exact tracks_parseConfigLabels.bind fun _ => .pure _
  · split
    · exact (tracks_parseObjects tracks_invMember {}).bind fun _ => .pure _
    · split
      · exact (tracks_parseObjects tracks_shardMember {}).bind fun _ => .pure _
      · split
        · exact (tracks_parseObjects tracks_routeMember {}).bind fun _ => .pure _
        · exact tracks_skipMember d

theorem tracks_parseAiData : Tracks Follows parseAiData := by
  apply (tracks_jmatch (by decide)).bind
  intro opened
  cases opened with
  | false => exact tracks_jskipValue.bind fun _ => .pure _
  | true => exact (tracks_jobject tracks_aiMember {}).bind fun r => .pure r.1

theorem tracks_manifestMember (k : Bytes) (l : Loaded) : Tracks Inside (manifestMember k l) := by
  unfold manifestMember
  apply Tracks.inside
  split
  · exact tracks_setString _ l
  · split
    · exact tracks_setString _ l
    · split
      · exact tracks_setString _ l
      · split
        · exact tracks_setString _ l
        · split
          · exact (tracks_parseFields l.out).bind fun _ => .pure _
          · split
            · exact tracks_parseAiData.bind fun _ => .pure _
            · exact tracks_skipMember l

theorem IsGap.isBlank {ws : Bytes} (h : IsGap ws) : IsBlank ws := fun c hc =>
  (by decide : ∀ c ∈ ascii " \t\n\r", isSpace c = true) c (h c hc)

theorem EndsValue.append {s t : Bytes} (h : EndsValue t) (ht : t ≠ []) : EndsValue (s ++ t) := by
  intro c hc
  rw [List.getLast?_append_of_ne_nil s ht] at hc
  exact h c hc

theorem EndsValue.closing (s : Bytes) {c : UInt8} (hc : isSpace c = false ∧ c ≠ ch ':') :
    EndsValue (s ++ [c]) := by
  intro d hd
  rw [List.getLast?_concat] at hd
  cases hd
  exact hc

theorem endsValue_text {v : Json} (hv : v.Valid) : EndsValue v.text := by
  have hclosing : ∀ c ∈ ascii "\"]\x7d", isSpace c = false ∧ c ≠ ch ':' := by decide
  cases v with
  | string body => exact .closing (ch '"' :: body) (hclosing _ (by decide))
  | number text =>
      intro c hc
      exact IsNumber.forall hv (fun c => isSpace c = false ∧ c ≠ ch ':') (by decide) c
        (List.mem_of_getLast? hc)
  | word w =>
      cases w with
      | true => exact .closing (ascii "tru") (by decide)
      | false => exact .closing (ascii "fals") (by decide)
      | null => exact .closing (ascii "nul") (by decide)
  | emptyArray ws => exact .closing (ch '[' :: ws) (hclosing _ (by decide))
  | array items => exact .closing (ch '[' :: items.text) (hclosing _ (by decide))
  | emptyObject ws => exact .closing (ch '\x7b' :: ws) (hclosing _ (by decide))
  | object members => exact .closing (ch '\x7b' :: members.text) (hclosing _ (by decide))

theorem ends_members : (members : Members) → members.Valid →
    ∃ y ws, members.text = y ++ ws ∧ IsGap ws ∧ EndsValue y ∧ y ≠ []
  | .last key value after, h => by
      obtain ⟨-, hvalue, hafter⟩ := h
      obtain ⟨c, t, htext, -⟩ := Json.startsToken hvalue
      have hne : value.text ≠ [] := by
        rw [htext]
        exact List.cons_ne_nil c t
      refine ⟨key.text ++ value.text, after, ?_, hafter, (endsValue_text hvalue).append hne, ?_⟩
      · rw [Members.text, List.append_assoc]
      · exact fun h => hne (List.append_eq_nil_iff.mp h).2
  | .more key value after rest, h => by
      obtain ⟨-, -, -, hrest⟩ := h
      obtain ⟨y, ws, htext, hws, hends, hne⟩ := ends_members rest hrest
      refine ⟨key.text ++ (value.text ++ (after ++ ch ',' :: y)), ws, ?_, hws, ?_, ?_⟩
      · rw [Members.text, htext]
        simp
      · have hcons : key.text ++ (value.text ++ (after ++ ch ',' :: y)) =
            (key.text ++ (value.text ++ (after ++ [ch ',']))) ++ y := by simp
        rw [hcons]
        exact hends.append hne
      · simp

theorem load_without_brace {before y ws after : Bytes} (hbefore : IsBlank before)
    (hy : EndsValue y) (hws : IsBlank ws) (hafter : IsBlank after)
    (hload : (manifestLoadFromJson (before ++ ch '\x7b' :: (y ++ (ws ++ ch '\x7d' :: after)))).rc =
      0) :
    (manifestLoadFromJson (before ++ ch '\x7b' :: y)).rc = 0 := by
  have hopen : ∀ t : Bytes, jmatch (ch '\x7b') ⟨before ++ ch '\x7b' :: t, false⟩ =
      (true, ⟨t, false⟩) := by
    intro t
    have hdrop : (before ++ ch '\x7b' :: t).dropWhile isSpace = ch '\x7b' :: t := by
      rw [dropWhile_blank hbefore, List.dropWhile_cons_of_neg (by decide)]
    simp [jmatch, hdrop]
  have htail : IsTail (ws ++ ch '\x7d' :: after) := ⟨ws, after, rfl, hws, hafter⟩
  have hobject : Tracks Follows (jobject true manifestMember {}) :=
    tracks_jobject tracks_manifestMember {}
  have htracks := hobject.follows _ _ (.agree htail hy)
  simp only [manifestLoadFromJson, hopen, if_true] at hload ⊢
  rcases htracks with herror | ⟨hsame, hfollows⟩
  · rw [herror] at hload
    split at hload
    · exact absurd hload (by simp)
    · exact absurd hload (by decide)
  · rw [hsame, hfollows.error.1] at hload
    rw [hfollows.error.2]
    exact hload

theorem manifest_object {tree : Tree} {m : Manifest} (h : objectIn manifestIn tree = some m) :
    ∃ name value rest, tree = .object (.cons name value rest) := by
  cases tree with
  | object members =>
      cases members with
      | nil => simp [objectIn, memberNames, manifestIn, requiredIn, memberNamed] at h
      | cons name value rest => exact ⟨name, value, rest, rfl⟩
  | _ => simp [objectIn] at h

/-- No manifest is loaded as promised: one that is loaded at all is still accepted when its
last brace is gone. -/
theorem manifest_never_loads_exactly (text : Bytes) (m : Manifest) (h : IsManifest text m) :
    ¬LoadsExactly text m := by
  intro hexact
  obtain ⟨tree, ⟨⟨before, value, after⟩, ⟨hbefore, hvalue, hafter⟩, rfl, rfl⟩, hm⟩ := h
  obtain ⟨name, v, rest, hobject⟩ := manifest_object hm
  cases value with
  | object members =>
      obtain ⟨y, ws, htext, hws, hends, -⟩ := ends_members members hvalue
      have hwhole : (Document.mk before (.object members) after).text =
          (before ++ ch '\x7b' :: y) ++ (ws ++ ch '\x7d' :: after) := by
        show before ++ (ch '\x7b' :: (members.text ++ [ch '\x7d']) ++ after) = _
        rw [htext]
        simp
      apply hexact.cut _ _ hwhole ⟨ch '\x7d', by simp, by decide⟩
      apply @load_without_brace before y ws after (IsGap.isBlank hbefore) hends
        (IsGap.isBlank hws) (IsGap.isBlank hafter)
      rw [← List.cons_append, ← List.append_assoc, ← hwhole, hexact.whole]
  | emptyObject ws =>
      injection hobject with hnil
      exact absurd hnil (by simp)
  | string body => exact absurd hobject (by simp [Json.tree])
  | number text => exact absurd hobject (by simp [Json.tree])
  | word w => exact absurd hobject (by simp [Json.tree])
  | emptyArray ws => exact absurd hobject (by simp [Json.tree])
  | array items => exact absurd hobject (by simp [Json.tree])

def plainKey (name : String) : MemberKey := ⟨[], ascii name, [], []⟩

theorem plainKey_valid {name : String} (h : ∀ c ∈ ascii name, 32 ≤ c ∧ c ≠ ch '"' ∧ c ≠ ch '\\') :
    (plainKey name).Valid :=
  ⟨IsGap.nil, isBody_of_plain h, IsGap.nil, IsGap.nil⟩

/-- `{"biz_id":"a","display_name":"b"}`. -/
def shortDocument : Document :=
  ⟨[], .object (.more (plainKey "biz_id") (.string (ascii "a")) []
    (.last (plainKey "display_name") (.string (ascii "b")) [])), []⟩

def shortManifest : Manifest := { bizId := ascii "a", displayName := ascii "b" }

theorem shortDocument_isManifest : IsManifest shortDocument.text shortManifest := by
  refine ⟨_, ⟨shortDocument, ⟨IsGap.nil, ?_, IsGap.nil⟩, rfl, rfl⟩, by decide +kernel⟩
  exact ⟨plainKey_valid (by decide), isBody_of_plain (by decide), IsGap.nil,
    plainKey_valid (by decide), isBody_of_plain (by decide), IsGap.nil⟩

theorem short_never_loads_exactly :
    IsManifest shortDocument.text shortManifest ∧ ¬LoadsExactly shortDocument.text shortManifest :=
  ⟨shortDocument_isManifest, manifest_never_loads_exactly _ _ shortDocument_isManifest⟩

def nestedDocument : Document :=
  ⟨[], .object (.more (plainKey "biz_id") (.string (ascii "a")) []
    (.more (plainKey "display_name") (.string (ascii "b")) []
    (.more (plainKey "ai_data") (.object (.last (plainKey "config_labels")
      (.object (.last (plainKey "l") (.string (ascii "m")) [])) [])) []
    (.last (plainKey "fields") (.array (.last [] (.object
      (.more (plainKey "key") (.string (ascii "k")) []
      (.last (plainKey "x") (.object (.last (plainKey "y") (.word .null) [])) []))) [])) [])))), []⟩

def nestedManifest : Manifest :=
  { bizId := ascii "a", displayName := ascii "b", fields := some [{ key := ascii "k" }],
    aiData := { configLabels := some [(ascii "l", ascii "m")] } }

theorem nestedDocument_isManifest : IsManifest nestedDocument.text nestedManifest := by
  refine ⟨_, ⟨nestedDocument, ⟨IsGap.nil, ?_, IsGap.nil⟩, rfl, rfl⟩, by decide +kernel⟩
  have hkey := @plainKey_valid
  exact ⟨hkey (by decide), isBody_of_plain (by decide), IsGap.nil, hkey (by decide),
    isBody_of_plain (by decide), IsGap.nil, hkey (by decide), ⟨hkey (by decide),
      ⟨hkey (by decide), isBody_of_plain (by decide), IsGap.nil⟩, IsGap.nil⟩, IsGap.nil,
    hkey (by decide), ⟨IsGap.nil, ⟨hkey (by decide), isBody_of_plain (by decide), IsGap.nil,
      hkey (by decide), ⟨hkey (by decide), trivial, IsGap.nil⟩, IsGap.nil⟩, IsGap.nil⟩, IsGap.nil⟩

/-- The first manifest is accepted without its brace; the second is refused, and its label
stays in the output. -/
theorem manifests_loaded_wrongly :
    (IsManifest shortDocument.text shortManifest ∧
      ¬LoadsExactly shortDocument.text shortManifest) ∧
    (manifestLoadFromJson (shortDocument.text.dropLast)).rc = 0 ∧
    IsManifest nestedDocument.text nestedManifest ∧
    (manifestLoadFromJson nestedDocument.text).rc = -1 ∧
    ¬(manifestLoadFromJson nestedDocument.text).out.OwnsNothing := by
  have haccepted : (manifestLoadFromJson (shortDocument.text.dropLast)).rc = 0 := by
    decide +kernel
  refine ⟨⟨shortDocument_isManifest, fun hexact => ?_⟩, haccepted, nestedDocument_isManifest,
    by decide +kernel, by decide +kernel⟩
  exact hexact.cut _ [ch '\x7d'] (by decide +kernel) ⟨ch '\x7d', by decide, by decide⟩ haccepted

end BlessStar.Business
