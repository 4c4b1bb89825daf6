import BlessStar.Business.Proofs.CutReading

/-!
# Runs over a cut text

The readers of the manifest loader one after the other: each keeps two cursors
together, of which the second runs over the cut text.
-/

namespace BlessStar.Business

open Lib.ByteString
open Gate (ch isBareByte scanString)

/-- The second cursor follows the first, without an error so far. -/
inductive Follows : Ctx → Ctx → Prop
  | agree {r z : Bytes} : IsTail z → EndsValue r → Follows ⟨r ++ z, false⟩ ⟨r, false⟩
  | ended {w : Bytes} : IsRemainder w → Follows ⟨w, false⟩ ⟨[], false⟩

inductive Inside : Ctx → Ctx → Prop
  | mk {r z : Bytes} : IsTail z → EndsValue r → r ≠ [] → Inside ⟨r ++ z, false⟩ ⟨r, false⟩

theorem Inside.follows {s₁ s₂ : Ctx} (h : Inside s₁ s₂) : Follows s₁ s₂ := by
  obtain ⟨hz, hr, -⟩ := h
  exact .agree hz hr

theorem Follows.inside_or {s₁ s₂ : Ctx} (h : Follows s₁ s₂) :
    Inside s₁ s₂ ∨ ∃ w, IsRemainder w ∧ s₁ = ⟨w, false⟩ ∧ s₂ = ⟨[], false⟩ := by
  cases h with
  | @agree r z hz hr =>
      by_cases hne : r = []
      · exact .inr ⟨z, .inl hz, by rw [hne]; rfl, by rw [hne]⟩
      · exact .inl (.mk hz hr hne)
  | ended hw => exact .inr ⟨_, hw, rfl, rfl⟩

theorem Follows.error {s₁ s₂ : Ctx} (h : Follows s₁ s₂) : s₁.error = false ∧ s₂.error = false := by
  cases h <;> exact ⟨rfl, rfl⟩

structure Tracks {α : Type} (together : Ctx → Ctx → Prop) (f : Reader α) : Prop where
  sticky : ∀ s, s.error = true → (f s).2.error = true
  shrinks : ∀ s, (f s).2.rest.length ≤ s.rest.length
  follows : ∀ s₁ s₂, together s₁ s₂ →
    (f s₁).2.error = true ∨ ((f s₁).1 = (f s₂).1 ∧ Follows (f s₁).2 (f s₂).2)

section

variable {α β : Type}

theorem Tracks.inside {f : Reader α} (h : Tracks Follows f) : Tracks Inside f where
  sticky := h.sticky
  shrinks := h.shrinks
  follows s₁ s₂ hs := h.follows s₁ s₂ hs.follows

theorem Tracks.pure (a : α) : Tracks Follows (pure a : Reader α) where
  sticky _ h := h
  shrinks _ := Nat.le_refl _
  follows _ _ h := .inr ⟨rfl, h⟩

theorem Tracks.bind {together : Ctx → Ctx → Prop} {f : Reader α} {g : α → Reader β}
    (hf : Tracks together f) (hg : ∀ a, Tracks Follows (g a)) : Tracks together (f >>= g) where
  sticky s h := (hg _).sticky _ (hf.sticky s h)
  shrinks s := ((hg _).shrinks _).trans (hf.shrinks s)
  follows s₁ s₂ h := by
    rcases hf.follows s₁ s₂ h with herror | ⟨hvalue, hfollows⟩
    · exact .inl ((hg _).sticky _ herror)
    · have hnext := (hg (f s₁).1).follows _ _ hfollows
      show (g (f s₁).1 (f s₁).2).2.error = true ∨
        (g (f s₁).1 (f s₁).2).1 = (g (f s₂).1 (f s₂).2).1 ∧
          Follows (g (f s₁).1 (f s₁).2).2 (g (f s₂).1 (f s₂).2).2
      rwa [hvalue] at hnext ⊢

end

/-! ## Single bytes -/

theorem length_dropWhile_le (p : UInt8 → Bool) (s : Bytes) :
    (s.dropWhile p).length ≤ s.length := (List.dropWhile_suffix p).length_le

theorem error_jmatch (c : UInt8) (s : Ctx) : (jmatch c s).2.error = s.error := by
  unfold jmatch
  split
  · rfl
  · split <;> rfl

theorem length_jmatch (c : UInt8) (s : Ctx) :
    (jmatch c s).2.rest.length ≤ s.rest.length := by
  have hskip := length_dropWhile_le isSpace s.rest
  unfold jmatch
  split
  · exact Nat.zero_le _
  · rename_i d rest heq
    rw [heq, List.length_cons] at hskip
    split
    · simp only
      omega
    · simpa using hskip

theorem length_jmatch_true {c : UInt8} {s s' : Ctx} (h : jmatch c s = (true, s')) :
    s'.rest.length < s.rest.length := by
  have hskip := length_dropWhile_le isSpace s.rest
  unfold jmatch at h
  split at h
  · exact absurd (congrArg Prod.fst h) (by simp)
  · rename_i d rest heq
    rw [heq, List.length_cons] at hskip
    split at h
    · obtain ⟨-, rfl⟩ := Prod.mk.inj h
      exact Nat.lt_of_succ_le hskip
    · exact absurd (congrArg Prod.fst h) (by simp)

theorem length_jmatch_of_eq {c : UInt8} {s s' : Ctx} {b : Bool} (h : jmatch c s = (b, s')) :
    s'.rest.length ≤ s.rest.length := by
  have hle := length_jmatch c s
  rwa [h] at hle

theorem Inside.goes {s₁ s₂ : Ctx} (h : Inside s₁ s₂) :
    ¬(s₁.rest = [] ∨ s₁.error = true) ∧ ¬(s₂.rest = [] ∨ s₂.error = true) := by
  obtain ⟨hz, hr, hne⟩ := h
  simp [hne]

theorem Inside.jmatch {s₁ s₂ : Ctx} (h : Inside s₁ s₂) (c : UInt8) :
    ∃ s₁' s₂', (jmatch c s₁ = (true, s₁') ∧ jmatch c s₂ = (true, s₂') ∧
        (c = ch ':' → Inside s₁' s₂') ∧ Follows s₁' s₂') ∨
      (jmatch c s₁ = (false, s₁') ∧ jmatch c s₂ = (false, s₂') ∧ Inside s₁' s₂') := by
  obtain @⟨r, z, hz, hr, hne⟩ := h
  obtain ⟨d, t, hcut, hwhole, hends⟩ := hr.skip hne z
  by_cases hd : d = c
  · subst hd
    refine ⟨⟨t ++ z, false⟩, ⟨t, false⟩, .inl ⟨?_, ?_, ?_, .agree hz hends.tail⟩⟩
    · simp [Business.jmatch, hwhole]
    · simp [Business.jmatch, hcut]
    · rintro rfl
      exact .mk hz hends.tail hends.ne_nil
  · refine ⟨⟨d :: (t ++ z), false⟩, ⟨d :: t, false⟩, .inr ⟨?_, ?_, ?_⟩⟩
    · simp [Business.jmatch, hwhole, hd]
    · simp [Business.jmatch, hcut, hd]
    · exact Inside.mk (r := d :: t) hz hends (List.cons_ne_nil d t)

theorem jmatch_remainder {w : Bytes} (h : IsRemainder w) {c : UInt8} (hc : c ≠ ch '\x7d') :
    jmatch c ⟨w, false⟩ = (false, ⟨w.dropWhile isSpace, false⟩) := by
  rcases h with h | h
  · obtain ⟨ws, hdrop, -⟩ := h.dropWhile
    simp [jmatch, hdrop, Ne.symm hc]
  · simp [jmatch, h.dropWhile]

theorem tracks_jmatch {c : UInt8} (hc : c ≠ ch '\x7d') : Tracks Follows (jmatch c) where
  sticky s h := (error_jmatch c s).trans h
  shrinks := length_jmatch c
  follows s₁ s₂ h := by
    right
    rcases h.inside_or with hin | ⟨w, hw, rfl, rfl⟩
    · obtain ⟨s₁', s₂', ⟨h₁, h₂, -, hf⟩ | ⟨h₁, h₂, hf⟩⟩ := hin.jmatch c
      · rw [h₁, h₂]
        exact ⟨rfl, hf⟩
      · rw [h₁, h₂]
        exact ⟨rfl, hf.follows⟩
    · rw [jmatch_remainder hw hc]
      exact ⟨rfl, .ended hw.dropWhile_space⟩

/-! ## Strings and bare values -/

theorem jparseString_cases (s : Ctx) :
    ((jparseString s).1 = none ∧ (jparseString s).2.error = true ∧
      (jparseString s).2.rest.length ≤ s.rest.length) ∨
    (∃ v s', jparseString s = (some v, s') ∧ s'.error = s.error ∧
      s'.rest.length < s.rest.length) := by
  have hskip := length_dropWhile_le isSpace s.rest
  unfold jparseString
  split
  · exact .inl ⟨rfl, rfl, Nat.zero_le _⟩
  · rename_i c rest heq
    rw [heq, List.length_cons] at hskip
    split
    · split
      · rename_i buf t hscan
        obtain ⟨u, rfl⟩ := scanString_suffix hscan
        rw [List.length_append] at hskip
        exact .inr ⟨buf, _, rfl, rfl, by simp only; omega⟩
      · exact .inl ⟨rfl, rfl, Nat.zero_le _⟩
    · exact .inl ⟨rfl, rfl, by simpa using hskip⟩

theorem jparseString_remainder {w : Bytes} (h : IsRemainder w) :
    (jparseString ⟨w, false⟩).1 = none ∧ (jparseString ⟨w, false⟩).2.error = true := by
  rcases h with h | h
  · obtain ⟨ws, hdrop, -⟩ := h.dropWhile
    have hquote : ch '\x7d' ≠ ch '"' := by decide
    simp [jparseString, hdrop, hquote]
  · simp [jparseString, h.dropWhile]

theorem tracks_jparseString : Tracks Follows jparseString where
  sticky s h := by
    rcases jparseString_cases s with ⟨-, herror, -⟩ | ⟨v, s', heq, herror, -⟩
    · exact herror
    · rw [heq]
      exact herror.trans h
  shrinks s := by
    rcases jparseString_cases s with ⟨-, -, hle⟩ | ⟨v, s', heq, -, hlt⟩
    · exact hle
    · rw [heq]
      exact hlt.le
  follows s₁ s₂ h := by
    rcases h.inside_or with hin | ⟨w, hw, rfl, rfl⟩
    · obtain @⟨r, z, hz, hr, hne⟩ := hin
      obtain ⟨d, t, hcut, hwhole, hends⟩ := hr.skip hne z
      by_cases hd : d = ch '"'
      · cases hscan : scanString t with
        | none =>
            left
            have hnone := scanString_append_none hscan (IsRemainder.not_mem_quote (.inl hz))
            simp [jparseString, hwhole, hd, hnone]
        | some p =>
            obtain ⟨buf, t'⟩ := p
            right
            have hsome := scanString_append hscan z
            have hrest : EndsValue t' := by
              obtain ⟨u, rfl⟩ := scanString_suffix hscan
              exact hends.tail.suffix
            have h₁ : jparseString ⟨r ++ z, false⟩ = (some buf, ⟨t' ++ z, false⟩) := by
              simp [jparseString, hwhole, hd, hsome]
            have h₂ : jparseString ⟨r, false⟩ = (some buf, ⟨t', false⟩) := by
              simp [jparseString, hcut, hd, hscan]
            rw [h₁, h₂]
            exact ⟨rfl, .agree hz hrest⟩
      · left
        simp [jparseString, hwhole, hd]
    · exact .inl (jparseString_remainder hw).2

theorem jparseString_at {s : Ctx} {t : Bytes} (h : s.rest.dropWhile isSpace = ch '"' :: t) :
    jparseString ⟨ch '"' :: t, s.error⟩ = jparseString s := by
  have hquote : (ch '"' :: t).dropWhile isSpace = ch '"' :: t :=
    List.dropWhile_cons_of_neg (by decide)
  unfold jparseString
  rw [h, hquote]

theorem tracks_jparseValueStr : Tracks Inside jparseValueStr where
  sticky s h := by
    unfold jparseValueStr
    split
    · exact h
    · rename_i c rest heq
      split
      · rename_i hc
        subst hc
        rw [jparseString_at heq]
        exact tracks_jparseString.sticky s h
      · exact h
  shrinks s := by
    have hskip := length_dropWhile_le isSpace s.rest
    unfold jparseValueStr
    split
    · exact Nat.zero_le _
    · rename_i c rest heq
      rw [heq] at hskip
      split
      · rename_i hc
        subst hc
        rw [jparseString_at heq]
        exact tracks_jparseString.shrinks s
      · exact (length_dropWhile_le isBareByte (c :: rest)).trans hskip
  follows s₁ s₂ h := by
    have hstring := tracks_jparseString.follows s₁ s₂ h.follows
    obtain @⟨r, z, hz, hr, hne⟩ := h
    obtain ⟨d, t, hcut, hwhole, hends⟩ := hr.skip hne z
    by_cases hd : d = ch '"'
    · subst hd
      have h₁ : jparseValueStr ⟨r ++ z, false⟩ = jparseString ⟨r ++ z, false⟩ := by
        simp only [jparseValueStr, hwhole, if_pos]
        exact jparseString_at (s := ⟨r ++ z, false⟩) hwhole
      have h₂ : jparseValueStr ⟨r, false⟩ = jparseString ⟨r, false⟩ := by
        simp only [jparseValueStr, hcut, if_pos]
        exact jparseString_at (s := ⟨r, false⟩) hcut
      rwa [h₁, h₂]
    · right
      obtain ⟨htake, hdrop⟩ := takeWhile_remainder (.inl hz) (d :: t)
      have h₁ : jparseValueStr ⟨r ++ z, false⟩ =
          (some ((d :: t).takeWhile isBareByte), ⟨(d :: t).dropWhile isBareByte ++ z, false⟩) := by
        simp only [jparseValueStr, hwhole, if_neg hd]
        rw [← List.cons_append, htake, hdrop]
      have h₂ : jparseValueStr ⟨r, false⟩ =
          (some ((d :: t).takeWhile isBareByte), ⟨(d :: t).dropWhile isBareByte, false⟩) := by
        simp only [jparseValueStr, hcut, if_neg hd]
      rw [h₁, h₂]
      exact ⟨rfl, .agree hz (hends.dropWhile _)⟩

/-! ## Skipped values -/

section

variable (opened closed : UInt8)

theorem skipNested_nil (n depth : Nat) (e : Bool) :
    skipNested opened closed n depth ⟨[], e⟩ = ⟨[], e⟩ := by
  cases n <;> rfl

theorem skipNested_done (n : Nat) (s : Ctx) : skipNested opened closed n 0 s = s := by
  cases n with
  | zero => rfl
  | succ n =>
      unfold skipNested
      split
      · rfl
      · exact if_pos rfl

theorem skipNested_quote (n depth : Nat) (t : Bytes) (e : Bool) :
    skipNested opened closed (n + 1) (depth + 1) ⟨ch '"' :: t, e⟩ =
      skipNested opened closed n (depth + 1) (jparseString ⟨ch '"' :: t, e⟩).2 := by
  rw [skipNested]
  simp

def depthBehind (c : UInt8) (depth : Nat) : Nat :=
  if c = opened then depth + 1 else if c = closed then depth - 1 else depth

theorem skipNested_byte (n depth : Nat) {c : UInt8} (hc : c ≠ ch '"') (t : Bytes) (e : Bool) :
    skipNested opened closed (n + 1) (depth + 1) ⟨c :: t, e⟩ =
      skipNested opened closed n (depthBehind opened closed c (depth + 1)) ⟨t, e⟩ := by
  rw [skipNested]
  simp [hc, depthBehind]

theorem skipNested_keeps (n depth : Nat) (s : Ctx) :
    (s.error = true → (skipNested opened closed n depth s).error = true) ∧
      (skipNested opened closed n depth s).rest.length ≤ s.rest.length := by
  induction n generalizing depth s with
  | zero => exact ⟨id, Nat.le_refl _⟩
  | succ n ih =>
      obtain ⟨rest, e⟩ := s
      cases rest with
      | nil =>
          rw [skipNested_nil]
          exact ⟨id, Nat.le_refl _⟩
      | cons c t =>
          cases depth with
          | zero =>
              rw [skipNested_done]
              exact ⟨id, Nat.le_refl _⟩
          | succ depth =>
              by_cases hc : c = ch '"'
              · subst hc
                rw [skipNested_quote]
                have hnext := ih (depth + 1) (jparseString ⟨ch '"' :: t, e⟩).2
                exact ⟨fun h => hnext.1 (tracks_jparseString.sticky _ h),
                  hnext.2.trans (tracks_jparseString.shrinks _)⟩
              · rw [skipNested_byte _ _ _ _ hc]
                have hnext := ih (depthBehind opened closed c (depth + 1)) ⟨t, e⟩
                exact ⟨hnext.1, hnext.2.trans (Nat.le_succ _)⟩

theorem skipNested_remainder (n depth : Nat) {w : Bytes} (h : IsRemainder w) :
    ∃ w', IsRemainder w' ∧ skipNested opened closed n depth ⟨w, false⟩ = ⟨w', false⟩ := by
  induction n generalizing depth w with
  | zero => exact ⟨w, h, rfl⟩
  | succ n ih =>
      cases w with
      | nil => exact ⟨[], h, skipNested_nil _ _ _ _ _⟩
      | cons c w =>
          cases depth with
          | zero => exact ⟨_, h, skipNested_done _ _ _ _⟩
          | succ depth =>
              rw [skipNested_byte _ _ _ _ h.cons.1]
              exact ih _ h.cons.2.2

theorem skipNested_follows (n₁ n₂ depth : Nat) {s₁ s₂ : Ctx} (h : Follows s₁ s₂)
    (h₁ : s₁.rest.length ≤ n₁) (h₂ : s₂.rest.length ≤ n₂) :
    (skipNested opened closed n₁ depth s₁).error = true ∨
      Follows (skipNested opened closed n₁ depth s₁) (skipNested opened closed n₂ depth s₂) := by
  induction n₁ generalizing n₂ depth s₁ s₂ with
  | zero =>
      right
      have hnil : s₂.rest = [] := by
        cases h with
        | @agree r z hz hr =>
            have hlen : (r ++ z).length ≤ 0 := h₁
            rw [List.length_append] at hlen
            exact List.length_eq_zero_iff.mp (show r.length = 0 by omega)
        | ended hw => rfl
      obtain ⟨rest, e⟩ := s₂
      subst hnil
      rw [skipNested_nil]
      exact h
  | succ n₁ ih =>
      rcases h.inside_or with hin | ⟨w, hw, rfl, rfl⟩
      · have hstring := tracks_jparseString.follows s₁ s₂ h
        obtain @⟨r, z, hz, hr, hne⟩ := hin
        obtain ⟨c, t, rfl⟩ := List.exists_cons_of_ne_nil hne
        obtain ⟨n₂, rfl⟩ := Nat.exists_eq_add_of_lt (h₂.trans_lt' (Nat.succ_pos t.length))
        rw [Nat.zero_add] at h₂ ⊢
        cases depth with
        | zero =>
            rw [skipNested_done, skipNested_done]
            exact .inr h
        | succ depth =>
            rw [List.cons_append] at h₁ hstring ⊢
            by_cases hc : c = ch '"'
            · subst hc
              rw [skipNested_quote, skipNested_quote]
              rcases hstring with herror | ⟨hvalue, hfollows⟩
              · exact .inl ((skipNested_keeps _ _ _ _ _).1 herror)
              · have hshorter : ∀ t : Bytes, ∀ s : Ctx, s = ⟨ch '"' :: t, false⟩ →
                    (jparseString s).2.error = false →
                    (jparseString s).2.rest.length ≤ t.length := by
                  rintro t s rfl herror
                  rcases jparseString_cases ⟨ch '"' :: t, false⟩ with
                    ⟨-, htrue, -⟩ | ⟨v, s', heq, -, hlt⟩
                  · rw [htrue] at herror
                    exact absurd herror (by decide)
                  · rw [heq]
                    exact Nat.le_of_lt_succ hlt
                apply ih _ _ hfollows
                · exact (hshorter _ _ rfl hfollows.error.1).trans (Nat.le_of_succ_le_succ h₁)
                · exact (hshorter _ _ rfl hfollows.error.2).trans (Nat.le_of_succ_le_succ h₂)
            · rw [skipNested_byte _ _ _ _ hc, skipNested_byte _ _ _ _ hc]
              exact ih _ _ (.agree hz hr.tail) (Nat.le_of_succ_le_succ h₁)
                (Nat.le_of_succ_le_succ h₂)
      · obtain ⟨w', hw', heq⟩ := skipNested_remainder opened closed (n₁ + 1) depth hw
        rw [heq, skipNested_nil]
        exact .inr (.ended hw')

end

def skipFrom (c : UInt8) (s : Ctx) : Ctx :=
  if c = ch '\x7b' then skipNested (ch '\x7b') (ch '\x7d') (s.rest.length + 1) 1 s
  else skipNested (ch '[') (ch ']') (s.rest.length + 1) 1 s

theorem jskipValue_string {s : Ctx} {t : Bytes} (h : s.rest.dropWhile isSpace = ch '"' :: t) :
    jskipValue s = ((), (jparseString s).2) := by
  rw [← jparseString_at h]
  simp [jskipValue, h]

theorem jskipValue_nested {s : Ctx} {c : UInt8} {t : Bytes}
    (h : s.rest.dropWhile isSpace = c :: t) (hc : c = ch '\x7b' ∨ c = ch '[') :
    jskipValue s = ((), skipFrom c ⟨t, s.error⟩) := by
  rcases hc with rfl | rfl
  · have hquote : ch '\x7b' ≠ ch '"' := by decide
    simp [jskipValue, h, hquote, skipFrom]
  · have hquote : ch '[' ≠ ch '"' := by decide
    have hbrace : ch '[' ≠ ch '\x7b' := by decide
    simp [jskipValue, h, hquote, hbrace, skipFrom]

theorem jskipValue_bare {s : Ctx} {c : UInt8} {t : Bytes}
    (h : s.rest.dropWhile isSpace = c :: t) (hquote : c ≠ ch '"')
    (hc : ¬(c = ch '\x7b' ∨ c = ch '[')) :
    jskipValue s = ((), ⟨(c :: t).dropWhile isBareByte, s.error⟩) := by
  rw [not_or] at hc
  simp only [jskipValue, h, if_neg hquote, if_neg hc.1, if_neg hc.2]

theorem jskipValue_nil {s : Ctx} (h : s.rest.dropWhile isSpace = []) :
    jskipValue s = ((), ⟨[], s.error⟩) := by
  simp [jskipValue, h]

theorem jskipValue_keeps (s : Ctx) :
    (s.error = true → (jskipValue s).2.error = true) ∧
      (jskipValue s).2.rest.length ≤ s.rest.length := by
  have hskip := length_dropWhile_le isSpace s.rest
  cases hdrop : s.rest.dropWhile isSpace with
  | nil =>
      rw [jskipValue_nil hdrop]
      exact ⟨id, Nat.zero_le _⟩
  | cons c t =>
      rw [hdrop] at hskip
      by_cases hquote : c = ch '"'
      · subst hquote
        rw [jskipValue_string hdrop]
        exact ⟨tracks_jparseString.sticky s, tracks_jparseString.shrinks s⟩
      · by_cases hc : c = ch '\x7b' ∨ c = ch '['
        · rw [jskipValue_nested hdrop hc, skipFrom]
          have hbehind : t.length ≤ s.rest.length := (Nat.le_succ _).trans hskip
          split
          · have hkeeps := skipNested_keeps (ch '\x7b') (ch '\x7d') (t.length + 1) 1 ⟨t, s.error⟩
            exact ⟨hkeeps.1, hkeeps.2.trans hbehind⟩
          · have hkeeps := skipNested_keeps (ch '[') (ch ']') (t.length + 1) 1 ⟨t, s.error⟩
            exact ⟨hkeeps.1, hkeeps.2.trans hbehind⟩
        · rw [jskipValue_bare hdrop hquote hc]
          exact ⟨id, (length_dropWhile_le isBareByte (c :: t)).trans hskip⟩

theorem tracks_jskipValue : Tracks Follows jskipValue where
  sticky s := (jskipValue_keeps s).1
  shrinks s := (jskipValue_keeps s).2
  follows s₁ s₂ h := by
    have hstring := tracks_jparseString.follows s₁ s₂ h
    rcases h.inside_or with hin | ⟨w, hw, rfl, rfl⟩
    · obtain @⟨r, z, hz, hr, hne⟩ := hin
      obtain ⟨c, t, hcut, hwhole, hends⟩ := hr.skip hne z
      by_cases hquote : c = ch '"'
      · subst hquote
        rw [jskipValue_string (s := ⟨r ++ z, false⟩) hwhole, jskipValue_string (s := ⟨r, false⟩) hcut]
        rcases hstring with herror | ⟨-, hfollows⟩
        · exact .inl herror
        · exact .inr ⟨rfl, hfollows⟩
      · by_cases hc : c = ch '\x7b' ∨ c = ch '['
        · rw [jskipValue_nested (s := ⟨r ++ z, false⟩) hwhole hc,
            jskipValue_nested (s := ⟨r, false⟩) hcut hc]
          have hnested := fun opened closed => skipNested_follows opened closed
            ((t ++ z).length + 1) (t.length + 1) 1 (.agree hz hends.tail) (Nat.le_succ _)
            (Nat.le_succ _)
          unfold skipFrom
          split
          · exact (hnested _ _).imp_right fun hfollows => ⟨rfl, hfollows⟩
          · exact (hnested _ _).imp_right fun hfollows => ⟨rfl, hfollows⟩
        · right
          rw [jskipValue_bare (s := ⟨r ++ z, false⟩) hwhole hquote hc,
            jskipValue_bare (s := ⟨r, false⟩) hcut hquote hc, ← List.cons_append,
            (takeWhile_remainder (.inl hz) (c :: t)).2]
          exact ⟨rfl, .agree hz (hends.dropWhile _)⟩
    · right
      rw [jskipValue_nil (s := ⟨[], false⟩) rfl]
      rcases hw with hw | hw
      · obtain ⟨ws, hdrop, hws⟩ := hw.dropWhile
        rw [jskipValue_bare (s := ⟨w, false⟩) hdrop (by decide) (by decide),
          List.dropWhile_cons_of_neg (by decide)]
        exact ⟨rfl, .ended (.inl (.brace hws))⟩
      · rw [jskipValue_nil (s := ⟨w, false⟩) hw.dropWhile]
        exact ⟨rfl, .ended (.inr (by simp [IsBlank]))⟩

end BlessStar.Business
