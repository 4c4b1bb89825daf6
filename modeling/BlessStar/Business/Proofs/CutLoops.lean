import BlessStar.Business.Proofs.CutRuns

/-!
# Loops over a cut text

The loops over objects and arrays track, whatever their fuel beyond the length of the
text, and with them the sections of a manifest.
-/

namespace BlessStar.Business

open Lib.ByteString
open Gate (ch atoi)

section

variable {α : Type}

section

variable (strict : Bool) (member : Bytes → α → Reader α)

theorem objectLoop_stop (n : Nat) (a : α) {s : Ctx} (h : s.rest = [] ∨ s.error = true) :
    objectLoop strict member n a s = ((a, false), s) := by
  cases n with
  | zero => rfl
  | succ n => exact if_pos h

theorem objectLoop_closed (n : Nat) (a : α) {s s' : Ctx} (h : ¬(s.rest = [] ∨ s.error = true))
    (hclosed : jmatch (ch '\x7d') s = (true, s')) :
    objectLoop strict member (n + 1) a s = ((a, false), s') := by
  simp only [objectLoop, if_neg h, hclosed, if_true]

theorem objectLoop_badKey (n : Nat) (a : α) {s s' : Ctx} (h : ¬(s.rest = [] ∨ s.error = true))
    (hclosed : jmatch (ch '\x7d') s = (false, s')) (hkey : (jparseString s').1 = none) :
    objectLoop strict member (n + 1) a s = ((a, true), (jparseString s').2) := by
  simp only [objectLoop, if_neg h, hclosed, hkey]
  rfl

theorem objectLoop_badColon (n : Nat) (a : α) {s s' t t' : Ctx} {k : Bytes}
    (h : ¬(s.rest = [] ∨ s.error = true)) (hclosed : jmatch (ch '\x7d') s = (false, s'))
    (hkey : jparseString s' = (some k, t)) (hcolon : jmatch (ch ':') t = (false, t')) :
    objectLoop strict member (n + 1) a s = ((a, true), { t' with error := t'.error || strict }) := by
  simp only [objectLoop, if_neg h, hclosed, hkey, hcolon]
  rfl

theorem objectLoop_member (n : Nat) (a : α) {s s' t t' : Ctx} {k : Bytes}
    (h : ¬(s.rest = [] ∨ s.error = true)) (hclosed : jmatch (ch '\x7d') s = (false, s'))
    (hkey : jparseString s' = (some k, t)) (hcolon : jmatch (ch ':') t = (true, t')) :
    objectLoop strict member (n + 1) a s =
      objectLoop strict member n (member k a t').1 (jmatch (ch ',') (member k a t').2).2 := by
  simp only [objectLoop, if_neg h, hclosed, hkey, hcolon]
  rfl

theorem jmatch_eq (c : UInt8) (s : Ctx) : jmatch c s = ((jmatch c s).1, (jmatch c s).2) := rfl

theorem length_objectLoop {strict : Bool} {member : Bytes → α → Reader α}
    (hm : ∀ k a s, (member k a s).2.rest.length ≤ s.rest.length) (n : Nat) (a : α) (s : Ctx) :
    (objectLoop strict member n a s).2.rest.length ≤ s.rest.length := by
  induction n generalizing a s with
  | zero => exact Nat.le_refl _
  | succ n ih =>
      by_cases h : s.rest = [] ∨ s.error = true
      · rw [objectLoop_stop _ _ _ _ h]
      · have hclosed := jmatch_eq (ch '\x7d') s
        have hle := length_jmatch (ch '\x7d') s
        cases hmatch : (jmatch (ch '\x7d') s).1 with
        | true =>
            rw [hmatch] at hclosed
            rw [objectLoop_closed _ _ _ _ h hclosed]
            exact hle
        | false =>
            rw [hmatch] at hclosed
            rcases jparseString_cases (jmatch (ch '\x7d') s).2 with
              ⟨hnone, -, hshort⟩ | ⟨k, t, hkey, -, hshort⟩
            · rw [objectLoop_badKey _ _ _ _ h hclosed hnone]
              exact hshort.trans hle
            · have hcolon := jmatch_eq (ch ':') t
              have hbehind := length_jmatch (ch ':') t
              cases hfound : (jmatch (ch ':') t).1 with
              | false =>
                  rw [hfound] at hcolon
                  rw [objectLoop_badColon _ _ _ _ h hclosed hkey hcolon]
                  show (jmatch (ch ':') t).2.rest.length ≤ s.rest.length
                  omega
              | true =>
                  rw [hfound] at hcolon
                  rw [objectLoop_member _ _ _ _ h hclosed hkey hcolon]
                  have hnext := ih (member k a (jmatch (ch ':') t).2).1
                    (jmatch (ch ',') (member k a (jmatch (ch ':') t).2).2).2
                  have hcomma := length_jmatch (ch ',') (member k a (jmatch (ch ':') t).2).2
                  have hvalue := hm k a (jmatch (ch ':') t).2
                  omega

end

theorem Follows.jparseString {s₁ s₂ : Ctx} (h : Follows s₁ s₂) :
    ((Business.jparseString s₁).1 = none ∧ (Business.jparseString s₁).2.error = true) ∨
      ∃ v t₁ t₂, Business.jparseString s₁ = (some v, t₁) ∧
        Business.jparseString s₂ = (some v, t₂) ∧ Follows t₁ t₂ ∧
        t₁.rest.length < s₁.rest.length ∧ t₂.rest.length < s₂.rest.length := by
  rcases jparseString_cases s₁ with ⟨hnone, herror, -⟩ | ⟨v, t₁, h₁, hsame, hshort₁⟩
  · exact .inl ⟨hnone, herror⟩
  · right
    have hkey := tracks_jparseString.follows s₁ s₂ h
    rw [h₁] at hkey
    rcases hkey with herror | ⟨hvalue, hfollows⟩
    · rw [hsame, h.error.1] at herror
      exact absurd herror (by decide)
    · rcases jparseString_cases s₂ with ⟨hnone, -, -⟩ | ⟨v', t₂, h₂, -, hshort₂⟩
      · rw [hnone] at hvalue
        exact absurd hvalue (by simp)
      · rw [h₂] at hvalue hfollows
        cases hvalue
        exact ⟨v, t₁, t₂, h₁, h₂, hfollows, hshort₁, hshort₂⟩

theorem objectLoop_follows {strict : Bool} {member : Bytes → α → Reader α}
    (hm : ∀ k a, Tracks Inside (member k a)) (n₁ n₂ : Nat) (a : α) {s₁ s₂ : Ctx}
    (h : Follows s₁ s₂) (h₁ : s₁.rest.length < n₁) (h₂ : s₂.rest.length < n₂) :
    (objectLoop strict member n₁ a s₁).2.error = true ∨
      ((objectLoop strict member n₁ a s₁).1 = (objectLoop strict member n₂ a s₂).1 ∧
        Follows (objectLoop strict member n₁ a s₁).2 (objectLoop strict member n₂ a s₂).2) := by
  induction n₁ generalizing n₂ a s₁ s₂ with
  | zero => exact absurd h₁ (Nat.not_lt_zero _)
  | succ n₁ ih =>
      obtain ⟨n₂, rfl⟩ := Nat.exists_eq_add_of_lt (h₂.trans_le' (Nat.zero_le _))
      rw [Nat.zero_add] at h₂ ⊢
      rcases h.inside_or with hin | ⟨w, hw, rfl, rfl⟩
      · obtain ⟨hgo₁, hgo₂⟩ := hin.goes
        obtain ⟨s₁', s₂', ⟨hm₁, hm₂, -, hf⟩ | ⟨hm₁, hm₂, hf⟩⟩ := hin.jmatch (ch '\x7d')
        · rw [objectLoop_closed _ _ _ _ hgo₁ hm₁, objectLoop_closed _ _ _ _ hgo₂ hm₂]
          exact .inr ⟨rfl, hf⟩
        · have hlen₁ := length_jmatch_of_eq hm₁
          have hlen₂ := length_jmatch_of_eq hm₂
          rcases hf.follows.jparseString with
            ⟨hnone, herror⟩ | ⟨k, t₁, t₂, hk₁, hk₂, hfollows, hshort₁, hshort₂⟩
          · rw [objectLoop_badKey _ _ _ _ hgo₁ hm₁ hnone]
            exact .inl herror
          · rcases hfollows.inside_or with hin' | ⟨w, hw, rfl, rfl⟩
            · obtain ⟨u₁, u₂, ⟨hc₁, hc₂, hstays, -⟩ | ⟨hc₁, hc₂, hf'⟩⟩ := hin'.jmatch (ch ':')
              · rw [objectLoop_member _ _ _ _ hgo₁ hm₁ hk₁ hc₁,
                  objectLoop_member _ _ _ _ hgo₂ hm₂ hk₂ hc₂]
                have hcolon₁ := length_jmatch_of_eq hc₁
                have hcolon₂ := length_jmatch_of_eq hc₂
                have hshrink₁ := (hm k a).shrinks u₁
                have hshrink₂ := (hm k a).shrinks u₂
                have hcomma₁ := length_jmatch (ch ',') (member k a u₁).2
                have hcomma₂ := length_jmatch (ch ',') (member k a u₂).2
                rcases (hm k a).follows u₁ u₂ (hstays rfl) with herror | ⟨hsame, hnext⟩
                · have hstop := (error_jmatch (ch ',') (member k a u₁).2).trans herror
                  rw [objectLoop_stop _ _ _ _ (.inr hstop)]
                  exact .inl hstop
                · rw [hsame]
                  have hcomma : Tracks Follows (jmatch (ch ',')) := tracks_jmatch (by decide)
                  rcases hcomma.follows _ _ hnext with herror | ⟨-, hnext⟩
                  · rw [error_jmatch, hnext.error.1] at herror
                    exact absurd herror (by decide)
                  · exact ih n₂ _ hnext (by omega) (by omega)
              · rw [objectLoop_badColon _ _ _ _ hgo₁ hm₁ hk₁ hc₁,
                  objectLoop_badColon _ _ _ _ hgo₂ hm₂ hk₂ hc₂]
                cases strict with
                | true => exact .inl (Bool.or_true _)
                | false =>
                    right
                    obtain ⟨hz, hr, -⟩ := hf'
                    exact ⟨rfl, .agree hz hr⟩
            · have hnone := jmatch_remainder hw (by decide : ch ':' ≠ ch '\x7d')
              have hend : jmatch (ch ':') ⟨[], false⟩ = (false, ⟨[], false⟩) := rfl
              rw [objectLoop_badColon _ _ _ _ hgo₁ hm₁ hk₁ hnone,
                objectLoop_badColon _ _ _ _ hgo₂ hm₂ hk₂ hend]
              cases strict with
              | true => exact .inl rfl
              | false => exact .inr ⟨rfl, .ended hw.dropWhile_space⟩
      · rw [objectLoop_stop strict member (n₂ + 1) a (.inl rfl)]
        by_cases hnil : w = []
        · subst hnil
          rw [objectLoop_stop strict member (n₁ + 1) a (.inl rfl)]
          exact .inr ⟨rfl, .ended hw⟩
        · have hgo : ¬((Ctx.mk w false).rest = [] ∨ (Ctx.mk w false).error = true) := by
            simp [hnil]
          rcases hw with hw | hw
          · obtain ⟨ws, hdrop, hws⟩ := hw.dropWhile
            have hclosed : jmatch (ch '\x7d') ⟨w, false⟩ = (true, ⟨ws, false⟩) := by
              simp [jmatch, hdrop]
            rw [objectLoop_closed _ _ _ _ hgo hclosed]
            exact .inr ⟨rfl, .ended (.inr hws)⟩
          · have hopen : jmatch (ch '\x7d') ⟨w, false⟩ = (false, ⟨[], false⟩) := by
              simp [jmatch, hw.dropWhile]
            rw [objectLoop_badKey _ _ _ _ hgo hopen rfl]
            exact .inl rfl

theorem tracks_jobject {strict : Bool} {member : Bytes → α → Reader α}
    (hm : ∀ k a, Tracks Inside (member k a)) (a : α) :
    Tracks Follows (jobject strict member a) where
  sticky s h := by
    unfold jobject
    rwa [objectLoop_stop _ _ _ _ (.inr h)]
  shrinks s := length_objectLoop (fun k a s => (hm k a).shrinks s) _ a s
  follows _ _ h := objectLoop_follows hm _ _ a h (Nat.lt_succ_self _) (Nat.lt_succ_self _)

section

variable (item : Reader (Option α))

theorem objectsLoop_stop (n : Nat) (items : List α) {s : Ctx} (h : s.rest = [] ∨ s.error = true) :
    objectsLoop item n items s = (some items, s) := by
  cases n with
  | zero => rfl
  | succ n => exact if_pos h

theorem objectsLoop_closed (n : Nat) (items : List α) {s s' : Ctx}
    (h : ¬(s.rest = [] ∨ s.error = true)) (hclosed : jmatch (ch ']') s = (true, s')) :
    objectsLoop item (n + 1) items s = (some items, s') := by
  simp only [objectsLoop, if_neg h, hclosed, if_true]

theorem objectsLoop_bad (n : Nat) (items : List α) {s s' t : Ctx}
    (h : ¬(s.rest = [] ∨ s.error = true)) (hclosed : jmatch (ch ']') s = (false, s'))
    (hopened : jmatch (ch '\x7b') s' = (false, t)) :
    objectsLoop item (n + 1) items s = (none, { t with error := true }) := by
  simp only [objectsLoop, if_neg h, hclosed, hopened]
  rfl

theorem objectsLoop_item (n : Nat) (items : List α) {s s' t : Ctx}
    (h : ¬(s.rest = [] ∨ s.error = true)) (hclosed : jmatch (ch ']') s = (false, s'))
    (hopened : jmatch (ch '\x7b') s' = (true, t)) :
    objectsLoop item (n + 1) items s =
      match (item t).1 with
      | none => (none, (item t).2)
      | some a => objectsLoop item n (items ++ [a]) (jmatch (ch ',') (item t).2).2 := by
  simp only [objectsLoop, if_neg h, hclosed, hopened]
  rfl

end

theorem length_objectsLoop {item : Reader (Option α)}
    (hi : ∀ s, (item s).2.rest.length ≤ s.rest.length) (n : Nat) (items : List α) (s : Ctx) :
    (objectsLoop item n items s).2.rest.length ≤ s.rest.length := by
  induction n generalizing items s with
  | zero => exact Nat.le_refl _
  | succ n ih =>
      by_cases h : s.rest = [] ∨ s.error = true
      · rw [objectsLoop_stop _ _ _ h]
      · have hclosed := jmatch_eq (ch ']') s
        have hle := length_jmatch (ch ']') s
        cases hmatch : (jmatch (ch ']') s).1 with
        | true =>
            rw [hmatch] at hclosed
            rw [objectsLoop_closed _ _ _ h hclosed]
            exact hle
        | false =>
            rw [hmatch] at hclosed
            have hopened := jmatch_eq (ch '\x7b') (jmatch (ch ']') s).2
            have hopen := length_jmatch (ch '\x7b') (jmatch (ch ']') s).2
            cases hfound : (jmatch (ch '\x7b') (jmatch (ch ']') s).2).1 with
            | false =>
                rw [hfound] at hopened
                rw [objectsLoop_bad _ _ _ h hclosed hopened]
                exact hopen.trans hle
            | true =>
                rw [hfound] at hopened
                rw [objectsLoop_item _ _ _ h hclosed hopened]
                have hvalue := hi (jmatch (ch '\x7b') (jmatch (ch ']') s).2).2
                split
                · exact hvalue.trans (hopen.trans hle)
                · exact (ih _ _).trans ((length_jmatch _ _).trans (hvalue.trans (hopen.trans hle)))

theorem objectsLoop_follows {item : Reader (Option α)} (hi : Tracks Follows item) (n₁ n₂ : Nat)
    (items : List α) {s₁ s₂ : Ctx} (h : Follows s₁ s₂) (h₁ : s₁.rest.length < n₁)
    (h₂ : s₂.rest.length < n₂) :
    (objectsLoop item n₁ items s₁).2.error = true ∨
      ((objectsLoop item n₁ items s₁).1 = (objectsLoop item n₂ items s₂).1 ∧
        Follows (objectsLoop item n₁ items s₁).2 (objectsLoop item n₂ items s₂).2) := by
  induction n₁ generalizing n₂ items s₁ s₂ with
  | zero => exact absurd h₁ (Nat.not_lt_zero _)
  | succ n₁ ih =>
      obtain ⟨n₂, rfl⟩ := Nat.exists_eq_add_of_lt (h₂.trans_le' (Nat.zero_le _))
      rw [Nat.zero_add] at h₂ ⊢
      rcases h.inside_or with hin | ⟨w, hw, rfl, rfl⟩
      · obtain ⟨hgo₁, hgo₂⟩ := hin.goes
        obtain ⟨s₁', s₂', ⟨hm₁, hm₂, -, hf⟩ | ⟨hm₁, hm₂, hf⟩⟩ := hin.jmatch (ch ']')
        · rw [objectsLoop_closed _ _ _ hgo₁ hm₁, objectsLoop_closed _ _ _ hgo₂ hm₂]
          exact .inr ⟨rfl, hf⟩
        · obtain ⟨t₁, t₂, ⟨hb₁, hb₂, -, hopened⟩ | ⟨hb₁, hb₂, -⟩⟩ := hf.jmatch (ch '\x7b')
          · rw [objectsLoop_item _ _ _ hgo₁ hm₁ hb₁, objectsLoop_item _ _ _ hgo₂ hm₂ hb₂]
            have hlen₁ := length_jmatch_of_eq hm₁
            have hlen₂ := length_jmatch_of_eq hm₂
            have hless₁ := length_jmatch_true hb₁
            have hless₂ := length_jmatch_true hb₂
            have hitem₁ := hi.shrinks t₁
            have hitem₂ := hi.shrinks t₂
            have hcomma₁ := length_jmatch (ch ',') (item t₁).2
            have hcomma₂ := length_jmatch (ch ',') (item t₂).2
            rcases hi.follows t₁ t₂ hopened with herror | ⟨hsame, hnext⟩
            · left
              split
              · exact herror
              · have hstop := (error_jmatch (ch ',') (item t₁).2).trans herror
                rwa [objectsLoop_stop _ _ _ (.inr hstop)]
            · rw [← hsame]
              cases hvalue : (item t₁).1 with
              | none => exact .inr ⟨rfl, hnext⟩
              | some a =>
                  have hcomma : Tracks Follows (jmatch (ch ',')) := tracks_jmatch (by decide)
                  rcases hcomma.follows _ _ hnext with herror | ⟨-, hnext⟩
                  · rw [error_jmatch, hnext.error.1] at herror
                    exact absurd herror (by decide)
                  · exact ih n₂ _ hnext (by omega) (by omega)
          · rw [objectsLoop_bad _ _ _ hgo₁ hm₁ hb₁]
            exact .inl rfl
      · rw [objectsLoop_stop item (n₂ + 1) items (.inl rfl)]
        by_cases hnil : w = []
        · subst hnil
          rw [objectsLoop_stop item (n₁ + 1) items (.inl rfl)]
          exact .inr ⟨rfl, .ended hw⟩
        · -- neither a bracket nor a further object is left
          have hgo : ¬((Ctx.mk w false).rest = [] ∨ (Ctx.mk w false).error = true) := by
            simp [hnil]
          rw [objectsLoop_bad _ _ _ hgo (jmatch_remainder hw (by decide))
            (jmatch_remainder hw.dropWhile_space (by decide))]
          exact .inl rfl

theorem tracks_jobjects {item : Reader (Option α)} (hi : Tracks Follows item) :
    Tracks Follows (jobjects item) where
  sticky s h := by
    unfold jobjects
    rwa [objectsLoop_stop _ _ _ (.inr h)]
  shrinks s := length_objectsLoop hi.shrinks _ [] s
  follows _ _ h := objectsLoop_follows hi _ _ [] h (Nat.lt_succ_self _) (Nat.lt_succ_self _)

end

theorem stringsLoop_stop (n : Nat) (items : List Bytes) {s : Ctx}
    (h : s.rest = [] ∨ s.error = true) : stringsLoop n items s = (items, s) := by
  cases n with
  | zero => rfl
  | succ n => exact if_pos h

theorem stringsLoop_closed (n : Nat) (items : List Bytes) {s s' : Ctx}
    (h : ¬(s.rest = [] ∨ s.error = true)) (hclosed : jmatch (ch ']') s = (true, s')) :
    stringsLoop (n + 1) items s = (items, s') := by
  simp only [stringsLoop, if_neg h, hclosed, if_true]

theorem stringsLoop_bad (n : Nat) (items : List Bytes) {s s' : Ctx}
    (h : ¬(s.rest = [] ∨ s.error = true)) (hclosed : jmatch (ch ']') s = (false, s'))
    (hvalue : (jparseString s').1 = none) :
    stringsLoop (n + 1) items s = (items, (jparseString s').2) := by
  simp only [stringsLoop, if_neg h, hclosed, hvalue]
  rfl

theorem stringsLoop_item (n : Nat) (items : List Bytes) {s s' t : Ctx} {v : Bytes}
    (h : ¬(s.rest = [] ∨ s.error = true)) (hclosed : jmatch (ch ']') s = (false, s'))
    (hvalue : jparseString s' = (some v, t)) :
    stringsLoop (n + 1) items s = stringsLoop n (items ++ [v]) (jmatch (ch ',') t).2 := by
  simp only [stringsLoop, if_neg h, hclosed, hvalue]
  rfl

theorem length_stringsLoop (n : Nat) (items : List Bytes) (s : Ctx) :
    (stringsLoop n items s).2.rest.length ≤ s.rest.length := by
  induction n generalizing items s with
  | zero => exact Nat.le_refl _
  | succ n ih =>
      by_cases h : s.rest = [] ∨ s.error = true
      · rw [stringsLoop_stop _ _ h]
      · have hclosed := jmatch_eq (ch ']') s
        have hle := length_jmatch (ch ']') s
        cases hmatch : (jmatch (ch ']') s).1 with
        | true =>
            rw [hmatch] at hclosed
            rw [stringsLoop_closed _ _ h hclosed]
            exact hle
        | false =>
            rw [hmatch] at hclosed
            rcases jparseString_cases (jmatch (ch ']') s).2 with
              ⟨hnone, -, hshort⟩ | ⟨v, t, hvalue, -, hshort⟩
            · rw [stringsLoop_bad _ _ h hclosed hnone]
              exact hshort.trans hle
            · rw [stringsLoop_item _ _ h hclosed hvalue]
              exact (ih _ _).trans ((length_jmatch _ _).trans (hshort.le.trans hle))

theorem stringsLoop_follows (n₁ n₂ : Nat) (items : List Bytes) {s₁ s₂ : Ctx} (h : Follows s₁ s₂)
    (h₁ : s₁.rest.length < n₁) (h₂ : s₂.rest.length < n₂) :
    (stringsLoop n₁ items s₁).2.error = true ∨
      ((stringsLoop n₁ items s₁).1 = (stringsLoop n₂ items s₂).1 ∧
        Follows (stringsLoop n₁ items s₁).2 (stringsLoop n₂ items s₂).2) := by
  induction n₁ generalizing n₂ items s₁ s₂ with
  | zero => exact absurd h₁ (Nat.not_lt_zero _)
  | succ n₁ ih =>
      obtain ⟨n₂, rfl⟩ := Nat.exists_eq_add_of_lt (h₂.trans_le' (Nat.zero_le _))
      rw [Nat.zero_add] at h₂ ⊢
      rcases h.inside_or with hin | ⟨w, hw, rfl, rfl⟩
      · obtain ⟨hgo₁, hgo₂⟩ := hin.goes
        obtain ⟨s₁', s₂', ⟨hm₁, hm₂, -, hf⟩ | ⟨hm₁, hm₂, hf⟩⟩ := hin.jmatch (ch ']')
        · rw [stringsLoop_closed _ _ hgo₁ hm₁, stringsLoop_closed _ _ hgo₂ hm₂]
          exact .inr ⟨rfl, hf⟩
        · have hlen₁ := length_jmatch_of_eq hm₁
          have hlen₂ := length_jmatch_of_eq hm₂
          rcases hf.follows.jparseString with
            ⟨hnone, herror⟩ | ⟨v, t₁, t₂, hv₁, hv₂, hfollows, hshort₁, hshort₂⟩
          · rw [stringsLoop_bad _ _ hgo₁ hm₁ hnone]
            exact .inl herror
          · rw [stringsLoop_item _ _ hgo₁ hm₁ hv₁, stringsLoop_item _ _ hgo₂ hm₂ hv₂]
            have hcomma₁ := length_jmatch (ch ',') t₁
            have hcomma₂ := length_jmatch (ch ',') t₂
            have hcomma : Tracks Follows (jmatch (ch ',')) := tracks_jmatch (by decide)
            rcases hcomma.follows _ _ hfollows with herror | ⟨-, hnext⟩
            · rw [error_jmatch, hfollows.error.1] at herror
              exact absurd herror (by decide)
            · exact ih n₂ _ hnext (by omega) (by omega)
      · rw [stringsLoop_stop (n₂ + 1) items (.inl rfl)]
        by_cases hnil : w = []
        · subst hnil
          rw [stringsLoop_stop (n₁ + 1) items (.inl rfl)]
          exact .inr ⟨rfl, .ended hw⟩
        · have hgo : ¬((Ctx.mk w false).rest = [] ∨ (Ctx.mk w false).error = true) := by
            simp [hnil]
          obtain ⟨hnone, herror⟩ := jparseString_remainder hw.dropWhile_space
          rw [stringsLoop_bad _ _ hgo (jmatch_remainder hw (by decide)) hnone]
          exact .inl herror

theorem tracks_jstrings : Tracks Follows jstrings := by
  have hloop : Tracks Follows fun s => stringsLoop (s.rest.length + 1) [] s :=
    { sticky := fun s h => by rwa [stringsLoop_stop _ _ (.inr h)]
      shrinks := fun s => length_stringsLoop _ [] s
      follows := fun _ _ h =>
        stringsLoop_follows _ _ [] h (Nat.lt_succ_self _) (Nat.lt_succ_self _) }
  apply (tracks_jmatch (by decide)).bind
  intro opened
  cases opened with
  | true => exact hloop.bind fun items => .pure (some items)
  | false => exact tracks_jskipValue.bind fun _ => .pure none

end BlessStar.Business
