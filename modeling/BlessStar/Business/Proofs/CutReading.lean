import BlessStar.Business.ManifestLoader

/-!
# Reading a text without its last brace

A reader of the manifest loader runs over a text and over the same text without its
last brace.  As long as the whole text raises no error, the two runs read the same
values: where the cut text ends, the whole text has a brace left, or nothing but white
space.
-/

namespace BlessStar.Business

open Lib.ByteString
open Gate (ch isBareByte scanString)

def IsBlank (ws : Bytes) : Prop := ∀ c ∈ ws, isSpace c = true

def IsTail (z : Bytes) : Prop := ∃ ws ws', z = ws ++ ch '\x7d' :: ws' ∧ IsBlank ws ∧ IsBlank ws'

def IsRemainder (w : Bytes) : Prop := IsTail w ∨ IsBlank w

def EndsValue (s : Bytes) : Prop := ∀ c ∈ s.getLast?, isSpace c = false ∧ c ≠ ch ':'

theorem EndsValue.suffix {s t : Bytes} (h : EndsValue (s ++ t)) : EndsValue t := by
  intro c hc
  apply h c
  rw [List.getLast?_append, hc]
  rfl

theorem EndsValue.tail {c : UInt8} {s : Bytes} (h : EndsValue (c :: s)) : EndsValue s :=
  EndsValue.suffix (s := [c]) h

theorem EndsValue.dropWhile {s : Bytes} (h : EndsValue s) (p : UInt8 → Bool) :
    EndsValue (s.dropWhile p) := by
  apply EndsValue.suffix (s := s.takeWhile p)
  rwa [List.takeWhile_append_dropWhile]

theorem EndsValue.ne_nil {s : Bytes} (h : EndsValue (ch ':' :: s)) : s ≠ [] := by
  rintro rfl
  exact (h (ch ':') rfl).2 rfl

theorem dropWhile_blank {ws : Bytes} (h : IsBlank ws) (s : Bytes) :
    (ws ++ s).dropWhile isSpace = s.dropWhile isSpace := by
  induction ws with
  | nil => rfl
  | cons c ws ih =>
      rw [List.cons_append, List.dropWhile_cons_of_pos (h c List.mem_cons_self)]
      exact ih fun d hd => h d (List.mem_cons_of_mem c hd)

theorem IsTail.dropWhile {z : Bytes} (h : IsTail z) :
    ∃ ws, z.dropWhile isSpace = ch '\x7d' :: ws ∧ IsBlank ws := by
  obtain ⟨ws, ws', rfl, hws, hws'⟩ := h
  refine ⟨ws', ?_, hws'⟩
  rw [dropWhile_blank hws, List.dropWhile_cons_of_neg (by decide)]

theorem IsBlank.dropWhile {ws : Bytes} (h : IsBlank ws) : ws.dropWhile isSpace = [] := by
  rw [← List.append_nil ws, dropWhile_blank h]
  rfl

theorem IsTail.brace {ws : Bytes} (h : IsBlank ws) : IsTail (ch '\x7d' :: ws) :=
  ⟨[], ws, rfl, by simp [IsBlank], h⟩

theorem IsRemainder.cons {c : UInt8} {w : Bytes} (h : IsRemainder (c :: w)) :
    c ≠ ch '"' ∧ isBareByte c = false ∧ IsRemainder w := by
  have hblank : isSpace c = true → c ≠ ch '"' ∧ isBareByte c = false := by
    intro hc
    constructor
    · rintro rfl
      exact absurd hc (by decide)
    · simp [isBareByte, hc]
  rcases h with ⟨ws, ws', heq, hws, hws'⟩ | h
  · cases ws with
    | nil =>
        obtain ⟨rfl, rfl⟩ := List.cons.inj heq
        exact ⟨by decide, by decide, .inr hws'⟩
    | cons d ws =>
        obtain ⟨rfl, rfl⟩ := List.cons.inj heq
        obtain ⟨hquote, hbare⟩ := hblank (hws c List.mem_cons_self)
        exact ⟨hquote, hbare, .inl ⟨ws, ws', rfl,
          fun d hd => hws d (List.mem_cons_of_mem c hd), hws'⟩⟩
  · obtain ⟨hquote, hbare⟩ := hblank (h c List.mem_cons_self)
    exact ⟨hquote, hbare, .inr fun d hd => h d (List.mem_cons_of_mem c hd)⟩

theorem IsRemainder.not_mem_quote {w : Bytes} (h : IsRemainder w) : ch '"' ∉ w := by
  induction w with
  | nil => exact List.not_mem_nil
  | cons c w ih =>
      obtain ⟨hquote, -, hw⟩ := h.cons
      rw [List.mem_cons, not_or]
      exact ⟨hquote.symm, ih hw⟩

theorem IsRemainder.dropWhile_space {w : Bytes} (h : IsRemainder w) :
    IsRemainder (w.dropWhile isSpace) := by
  rcases h with h | h
  · obtain ⟨ws, hdrop, hws⟩ := h.dropWhile
    rw [hdrop]
    exact .inl (.brace hws)
  · rw [h.dropWhile]
    exact .inr (by simp [IsBlank])

theorem takeWhile_remainder {w : Bytes} (h : IsRemainder w) (s : Bytes) :
    (s ++ w).takeWhile isBareByte = s.takeWhile isBareByte ∧
      (s ++ w).dropWhile isBareByte = s.dropWhile isBareByte ++ w := by
  induction s with
  | nil =>
      cases w with
      | nil => exact ⟨rfl, rfl⟩
      | cons c w => simp [h.cons.2.1]
  | cons c s ih =>
      cases hc : isBareByte c with
      | true => simpa [hc] using ih
      | false => simp [hc]

theorem EndsValue.skip {s : Bytes} (h : EndsValue s) (hs : s ≠ []) (z : Bytes) :
    ∃ c t, s.dropWhile isSpace = c :: t ∧ (s ++ z).dropWhile isSpace = c :: (t ++ z) ∧
      EndsValue (c :: t) := by
  induction s with
  | nil => exact absurd rfl hs
  | cons c s ih =>
      cases hc : isSpace c with
      | false => exact ⟨c, s, by simp [hc], by simp [hc], h⟩
      | true =>
          have hne : s ≠ [] := by
            rintro rfl
            simpa [hc] using (h c rfl).1
          simpa [hc] using ih h.tail hne

@[elab_as_elim]
theorem string_induction {P : Bytes → Prop} (nil : P []) (quote : ∀ rest, P (ch '"' :: rest))
    (slash : P [ch '\\']) (escape : ∀ e rest, P rest → P (ch '\\' :: e :: rest))
    (raw : ∀ c rest, c ≠ ch '"' → c ≠ ch '\\' → P rest → P (c :: rest)) : ∀ s, P s
  | [] => nil
  | c :: rest => by
      by_cases hquote : c = ch '"'
      · exact hquote ▸ quote rest
      · by_cases hslash : c = ch '\\'
        · cases rest with
          | nil => exact hslash ▸ slash
          | cons e rest =>
              exact hslash ▸ escape e rest (string_induction nil quote slash escape raw rest)
        · exact raw c rest hquote hslash (string_induction nil quote slash escape raw rest)

theorem scanString_slash : scanString [ch '\\'] = none := by decide

theorem scanString_append {s buf t : Bytes} (h : scanString s = some (buf, t)) (z : Bytes) :
    scanString (s ++ z) = some (buf, t ++ z) := by
  induction s using string_induction generalizing buf with
  | nil => simp [scanString] at h
  | quote rest =>
      rw [Gate.scanString_quote] at h
      obtain ⟨rfl, rfl⟩ := Prod.mk.inj (Option.some.inj h)
      exact Gate.scanString_quote _
  | slash => simp [scanString_slash] at h
  | escape e rest ih =>
      rw [Gate.scanString_escape, Option.map_eq_some_iff] at h
      obtain ⟨⟨b, r⟩, hscan, heq⟩ := h
      obtain ⟨rfl, rfl⟩ := Prod.mk.inj heq
      rw [List.cons_append, List.cons_append, Gate.scanString_escape, ih hscan]
      rfl
  | raw c rest hquote hslash ih =>
      rw [Gate.scanString_raw hquote hslash, Option.map_eq_some_iff] at h
      obtain ⟨⟨b, r⟩, hscan, heq⟩ := h
      obtain ⟨rfl, rfl⟩ := Prod.mk.inj heq
      rw [List.cons_append, Gate.scanString_raw hquote hslash, ih hscan]
      rfl

theorem scanString_append_none {s : Bytes} (h : scanString s = none) {z : Bytes}
    (hz : ch '"' ∉ z) : scanString (s ++ z) = none := by
  have hnone : ∀ z : Bytes, ch '"' ∉ z → scanString z = none := by
    intro z hz
    induction z using string_induction with
    | nil => rfl
    | quote rest => exact absurd List.mem_cons_self hz
    | slash => rfl
    | escape e rest ih =>
        rw [Gate.scanString_escape,
          ih fun hm => hz (List.mem_cons_of_mem _ (List.mem_cons_of_mem e hm))]
        rfl
    | raw c rest hquote hslash ih =>
        rw [Gate.scanString_raw hquote hslash, ih fun hm => hz (List.mem_cons_of_mem c hm)]
        rfl
  induction s using string_induction with
  | nil => exact hnone z hz
  | quote rest => simp [Gate.scanString_quote] at h
  | slash =>
      -- the backslash at the end takes the first byte behind the cut
      cases z with
      | nil => rfl
      | cons d z =>
          rw [List.cons_append, List.nil_append, Gate.scanString_escape,
            hnone z fun hm => hz (List.mem_cons_of_mem d hm)]
          rfl
  | escape e rest ih =>
      rw [Gate.scanString_escape, Option.map_eq_none_iff] at h
      rw [List.cons_append, List.cons_append, Gate.scanString_escape, ih h]
      rfl
  | raw c rest hquote hslash ih =>
      rw [Gate.scanString_raw hquote hslash, Option.map_eq_none_iff] at h
      rw [List.cons_append, Gate.scanString_raw hquote hslash, ih h]
      rfl

theorem scanString_suffix {s buf t : Bytes} (h : scanString s = some (buf, t)) :
    ∃ u, s = u ++ t := by
  induction s using string_induction generalizing buf with
  | nil => simp [scanString] at h
  | quote rest =>
      rw [Gate.scanString_quote] at h
      obtain ⟨-, rfl⟩ := Prod.mk.inj (Option.some.inj h)
      exact ⟨[ch '"'], rfl⟩
  | slash => simp [scanString_slash] at h
  | escape e rest ih =>
      rw [Gate.scanString_escape, Option.map_eq_some_iff] at h
      obtain ⟨⟨b, r⟩, hscan, heq⟩ := h
      obtain ⟨rfl, rfl⟩ := Prod.mk.inj heq
      obtain ⟨u, rfl⟩ := ih hscan
      exact ⟨ch '\\' :: e :: u, rfl⟩
  | raw c rest hquote hslash ih =>
      rw [Gate.scanString_raw hquote hslash, Option.map_eq_some_iff] at h
      obtain ⟨⟨b, r⟩, hscan, heq⟩ := h
      obtain ⟨rfl, rfl⟩ := Prod.mk.inj heq
      obtain ⟨u, rfl⟩ := ih hscan
      exact ⟨c :: u, rfl⟩

end BlessStar.Business
