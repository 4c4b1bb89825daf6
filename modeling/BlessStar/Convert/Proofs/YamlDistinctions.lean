import BlessStar.Convert.Proofs.YamlWriting

/-!
# What YAML distinguishes

The text of a skeleton can be read off what is written: a scalar ends at its
colon or line feed, an item begins with a dash at its indentation, and nothing
that follows an array does.  So two values are written alike exactly when they
have one skeleton.
-/

namespace BlessStar.Convert.Proofs.YamlDistinctions

open Lib.ByteString Lib.JsonText YamlWriting

variable {s t r r' : Bytes} {c d : UInt8} {indent : Nat}

def doubled (s : Bytes) : Bytes := s.flatMap fun c => if c = ch '\'' then [c, ch '\''] else [c]

def IsPlain (s : Bytes) : Prop := s ≠ [] ∧ ∀ c ∈ s, c ∉ yamlSpecial

theorem scalarText_cases (s : Bytes) :
    (IsPlain s ∧ scalarText s = s) ∨ scalarText s = ch '\'' :: (doubled s ++ [ch '\'']) := by
  by_cases hplain : IsPlain s
  · exact .inl ⟨hplain, scalarText_plain hplain.1 hplain.2⟩
  · refine .inr ?_
    unfold scalarText emitYamlString
    dsimp only
    rw [if_neg]
    · rfl
    · rintro ⟨hany, hne⟩
      refine hplain ⟨hne, fun c hc => ?_⟩
      simpa using List.any_eq_false.mp hany c hc

theorem scalarText_head (s : Bytes) :
    ∃ x u, scalarText s = x :: u ∧ (x = ch '\'' ∨ x ∉ yamlSpecial) := by
  rcases scalarText_cases s with ⟨⟨hne, hplain⟩, htext⟩ | htext
  · obtain ⟨x, u, rfl⟩ := List.exists_cons_of_ne_nil hne
    exact ⟨x, u, htext, .inr (hplain x List.mem_cons_self)⟩
  · exact ⟨_, _, htext, .inl rfl⟩

theorem scalarText_ne (hc : c ∈ ascii "[\x7b\n") (s r r' : Bytes) :
    scalarText s ++ r ≠ c :: r' := by
  obtain ⟨x, u, htext, hx⟩ := scalarText_head s
  rw [htext, List.cons_append]
  intro heq
  obtain rfl := (List.cons.inj heq).1
  rcases hx with rfl | hx
  · exact absurd hc (by decide)
  · exact hx ((by decide : ∀ c ∈ ascii "[\x7b\n", c ∈ yamlSpecial) x hc)

theorem plain_cancel (hs : ∀ x ∈ s, x ∉ yamlSpecial) (ht : ∀ x ∈ t, x ∉ yamlSpecial)
    (hc : c ∈ yamlSpecial) (hd : d ∈ yamlSpecial) (heq : s ++ c :: r = t ++ d :: r') :
    s = t ∧ c :: r = d :: r' := by
  induction s generalizing t with
  | nil =>
      cases t with
      | nil => exact ⟨rfl, heq⟩
      | cons y t =>
          obtain rfl := (List.cons.inj heq).1
          exact absurd hc (ht c List.mem_cons_self)
  | cons x s ih =>
      cases t with
      | nil =>
          obtain rfl := (List.cons.inj heq).1
          exact absurd hd (hs x List.mem_cons_self)
      | cons y t =>
          obtain ⟨rfl, hrest⟩ := List.cons.inj heq
          obtain ⟨rfl, hsame⟩ := ih (fun z hz => hs z (List.mem_cons_of_mem x hz))
            (fun z hz => ht z (List.mem_cons_of_mem x hz)) hrest
          exact ⟨rfl, hsame⟩

theorem doubled_quote (s : Bytes) : doubled (ch '\'' :: s) = ch '\'' :: ch '\'' :: doubled s := rfl

theorem doubled_cons (hc : c ≠ ch '\'') (s : Bytes) : doubled (c :: s) = c :: doubled s := by
  rw [doubled, List.flatMap_cons, if_neg hc]
  rfl

theorem doubled_cancel (hc : c ≠ ch '\'') (hd : d ≠ ch '\'')
    (heq : doubled s ++ ch '\'' :: c :: r = doubled t ++ ch '\'' :: d :: r') :
    s = t ∧ c :: r = d :: r' := by
  induction s generalizing t with
  | nil =>
      cases t with
      | nil => exact ⟨rfl, (List.cons.inj heq).2⟩
      | cons y t =>
          by_cases hy : y = ch '\''
          · rw [hy, doubled_quote] at heq
            exact absurd (List.cons.inj (List.cons.inj heq).2).1 hc
          · rw [doubled_cons hy] at heq
            exact absurd (List.cons.inj heq).1.symm hy
  | cons x s ih =>
      by_cases hx : x = ch '\''
      · rw [hx, doubled_quote] at heq
        cases t with
        | nil => exact absurd (List.cons.inj (List.cons.inj heq).2).1.symm hd
        | cons y t =>
            by_cases hy : y = ch '\''
            · rw [hy, doubled_quote] at heq
              obtain ⟨rfl, hsame⟩ := ih (List.cons.inj (List.cons.inj heq).2).2
              exact ⟨by rw [hx, hy], hsame⟩
            · rw [doubled_cons hy] at heq
              exact absurd (List.cons.inj heq).1.symm hy
      · rw [doubled_cons hx] at heq
        cases t with
        | nil => exact absurd (List.cons.inj heq).1 hx
        | cons y t =>
            by_cases hy : y = ch '\''
            · rw [hy, doubled_quote] at heq
              exact absurd (List.cons.inj heq).1 hx
            · rw [doubled_cons hy] at heq
              obtain ⟨rfl, hrest⟩ := List.cons.inj heq
              obtain ⟨rfl, hsame⟩ := ih hrest
              exact ⟨rfl, hsame⟩

/-- **A scalar ends** at the colon or the line feed behind it. -/
theorem scalar_cancel (hc : c ∈ ascii ":\n") (hd : d ∈ ascii ":\n")
    (heq : scalarText s ++ c :: r = scalarText t ++ d :: r') : s = t ∧ c :: r = d :: r' := by
  have hspecial := (by decide : ∀ c ∈ ascii ":\n", c ∈ yamlSpecial ∧ c ≠ ch '\'')
  have hquote : ∀ {s : Bytes}, IsPlain s → ∀ u u', s ++ u ≠ ch '\'' :: u' := by
    rintro s ⟨hne, hplain⟩ u u' hcons
    obtain ⟨x, v, rfl⟩ := List.exists_cons_of_ne_nil hne
    obtain rfl := (List.cons.inj hcons).1
    exact hplain _ List.mem_cons_self (by decide)
  rcases scalarText_cases s with ⟨hs, hstext⟩ | hstext <;>
    rcases scalarText_cases t with ⟨ht, httext⟩ | httext
  · rw [hstext, httext] at heq
    exact plain_cancel hs.2 ht.2 (hspecial c hc).1 (hspecial d hd).1 heq
  · rw [hstext, httext] at heq
    exact absurd heq (hquote hs _ _)
  · rw [hstext, httext] at heq
    exact absurd heq.symm (hquote ht _ _)
  · rw [hstext, httext, List.cons_append, List.cons_append, List.append_assoc,
      List.append_assoc] at heq
    exact doubled_cancel (hspecial c hc).2 (hspecial d hd).2 (List.cons.inj heq).2

def Breaks (r : Bytes) : Prop := ∃ u, r = ch '\n' :: u

def EndsItems (indent : Nat) (r : Bytes) : Prop := Breaks r ∧ ∀ u, r ≠ dash indent ++ u

theorem pad_succ (indent : Nat) : pad (indent + 1) = ch ' ' :: ch ' ' :: pad indent := by
  rw [pad, List.replicate_succ, List.flatten_cons]
  rfl

theorem pad_ne_dash (indent : Nat) (u u' : Bytes) :
    pad (indent + 1) ++ u ≠ pad indent ++ (ascii "- " ++ u') := by
  induction indent with
  | zero =>
      intro heq
      exact absurd (List.cons.inj heq).1 (by decide)
  | succ indent ih =>
      intro heq
      have hshift : ch ' ' :: ch ' ' :: (pad (indent + 1) ++ u) =
          ch ' ' :: ch ' ' :: (pad indent ++ (ascii "- " ++ u')) := heq
      exact ih (List.cons.inj (List.cons.inj hshift).2).2

theorem entries_pad (indent : Nat) (entries : Entries) : ∃ u, entriesText indent entries = pad indent ++ u := by
  cases entries with
  | last key value => exact ⟨_, rfl⟩
  | more key value rest => exact ⟨_, rfl⟩

theorem leaf_ne_dash (leaf : Leaf) (r u : Bytes) :
    leafText (indent + 1) leaf ++ r ≠ dash (indent + 1) ++ u := by
  cases leaf with
  | scalar text => exact scalarText_ne (by decide) text r _
  | emptyArray => exact fun heq => absurd (List.cons.inj heq).1 (by decide)
  | emptyObject => exact fun heq => absurd (List.cons.inj heq).1 (by decide)
  | object entries =>
      intro heq
      obtain ⟨u', hu'⟩ := entries_pad (indent + 1) entries
      have hrest : pad (indent + 1) ++ u' ++ r = pad indent ++ ascii "- " ++ u := by
        rw [← hu']
        exact (List.cons.inj heq).2
      rw [List.append_assoc, List.append_assoc] at hrest
      exact pad_ne_dash indent _ _ hrest

theorem lines_dash (indent : Nat) (lines : Lines) : ∃ u, linesText indent lines = dash indent ++ u := by
  cases lines with
  | last item => exact ⟨_, rfl⟩
  | more item rest => exact ⟨_, rfl⟩
  | opens rest => exact ⟨_, rfl⟩

theorem breaks_lines (lines : Lines) (r : Bytes) : Breaks (linesText indent lines ++ r) := by
  obtain ⟨u, hu⟩ := lines_dash indent lines
  rw [hu]
  exact ⟨_, rfl⟩

theorem endsItems_key (indent : Nat) (key : Bytes) (u : Bytes) :
    EndsItems (indent + 1) (ch '\n' :: (pad indent ++ (scalarText key ++ (ascii ": " ++ u)))) := by
  refine ⟨⟨_, rfl⟩, fun u' heq => ?_⟩
  have hrest := List.append_cancel_left
    (show pad indent ++ (scalarText key ++ (ascii ": " ++ u)) = pad indent ++ (ascii "- " ++ u') by
      simpa [dash] using heq)
  rcases scalarText_cases key with ⟨⟨hne, hplain⟩, htext⟩ | htext
  · rw [htext] at hrest
    match key, hne with
    | [x], _ =>
        exact absurd (List.cons.inj (List.cons.inj hrest).2).1 (by decide)
    | x :: y :: key, _ =>
        have hy : y = ch ' ' := (List.cons.inj (List.cons.inj hrest).2).1
        exact hplain y (by simp) (hy ▸ by decide)
  · rw [htext] at hrest
    exact absurd (List.cons.inj hrest).1 (by decide)

theorem endsItems_break (hindent : 0 < indent) (hr : Breaks r) :
    EndsItems (indent + 1) (ch '\n' :: r) := by
  obtain ⟨u, rfl⟩ := hr
  obtain ⟨indent, rfl⟩ : ∃ n, indent = n + 1 := ⟨indent - 1, by omega⟩
  refine ⟨⟨_, rfl⟩, fun u' heq => ?_⟩
  have hrest := (List.cons.inj heq).2
  rw [Nat.add_sub_cancel, pad_succ] at hrest
  exact absurd (List.cons.inj hrest).1 (by decide)

theorem key_cancel {key key' : Bytes} {u u' : Bytes}
    (heq : pad indent ++ (scalarText key ++ (ascii ": " ++ u)) =
      pad indent ++ (scalarText key' ++ (ascii ": " ++ u'))) : key = key' ∧ u = u' := by
  obtain ⟨rfl, hsame⟩ := scalar_cancel (c := ch ':') (d := ch ':') (by decide) (by decide)
    (List.append_cancel_left heq)
  exact ⟨rfl, (List.cons.inj (List.cons.inj hsame).2).2⟩

theorem breaks_ne_entries (hr : Breaks r) (entries : Entries) (u : Bytes) :
    r ≠ entriesText (indent + 1) entries ++ u := by
  obtain ⟨v, rfl⟩ := hr
  obtain ⟨w, hw⟩ := entries_pad (indent + 1) entries
  intro heq
  rw [hw, pad_succ] at heq
  exact absurd (List.cons.inj heq).1 (by decide)

theorem endsItems_entries (entries : Entries) (r : Bytes) :
    EndsItems (indent + 1) (ch '\n' :: (entriesText indent entries ++ r)) := by
  cases entries with
  | last key value =>
      rw [entriesText, List.append_assoc, List.append_assoc, List.append_assoc]
      exact endsItems_key indent key _
  | more key value rest =>
      rw [entriesText, List.append_assoc, List.append_assoc, List.append_assoc]
      exact endsItems_key indent key _

mutual

/-- **A leaf can be read off** what is written before a line feed. -/
theorem leaf_cancel (a b : Leaf) (indent : Nat) {r r' : Bytes} (hr : Breaks r) (hr' : Breaks r')
    (heq : leafText (indent + 1) a ++ r = leafText (indent + 1) b ++ r') : a = b ∧ r = r' := by
  match a, b with
  | .scalar s, .scalar t =>
      obtain ⟨u, rfl⟩ := hr
      obtain ⟨u', rfl⟩ := hr'
      obtain ⟨rfl, hsame⟩ := scalar_cancel (by decide) (by decide) heq
      exact ⟨rfl, hsame⟩
  | .scalar s, .emptyArray => exact absurd heq (scalarText_ne (by decide) s r _)
  | .scalar s, .emptyObject => exact absurd heq (scalarText_ne (by decide) s r _)
  | .scalar s, .object _ => exact absurd heq (scalarText_ne (by decide) s r _)
  | .emptyArray, .scalar t => exact absurd heq.symm (scalarText_ne (by decide) t r' _)
  | .emptyArray, .emptyArray => exact ⟨rfl, List.append_cancel_left heq⟩
  | .emptyArray, .emptyObject => exact absurd (List.cons.inj heq).1 (by decide)
  | .emptyArray, .object _ => exact absurd (List.cons.inj heq).1 (by decide)
  | .emptyObject, .scalar t => exact absurd heq.symm (scalarText_ne (by decide) t r' _)
  | .emptyObject, .emptyArray => exact absurd (List.cons.inj heq).1 (by decide)
  | .emptyObject, .emptyObject => exact ⟨rfl, List.append_cancel_left heq⟩
  | .emptyObject, .object _ => exact absurd (List.cons.inj heq).1 (by decide)
  | .object _, .scalar t => exact absurd heq.symm (scalarText_ne (by decide) t r' _)
  | .object _, .emptyArray => exact absurd (List.cons.inj heq).1 (by decide)
  | .object _, .emptyObject => exact absurd (List.cons.inj heq).1 (by decide)
  | .object entries, .object entries' =>
      obtain ⟨rfl, hsame⟩ := entries_cancel entries entries' indent hr hr' (List.cons.inj heq).2
      exact ⟨rfl, hsame⟩

/-- **The items of an array can be read off**, up to what is no item. -/
theorem lines_cancel (a b : Lines) (indent : Nat) {r r' : Bytes} (hr : EndsItems (indent + 1) r)
    (hr' : EndsItems (indent + 1) r')
    (heq : linesText (indent + 1) a ++ r = linesText (indent + 1) b ++ r') : a = b ∧ r = r' := by
  have hnot : ∀ lines u, ∀ {r}, EndsItems (indent + 1) r → r ≠ linesText (indent + 1) lines ++ u := by
    intro lines u r hends hlines
    obtain ⟨v, hv⟩ := lines_dash (indent + 1) lines
    rw [hv, List.append_assoc] at hlines
    exact hends.2 _ hlines
  have hleaf : ∀ leaf lines u u',
      leafText (indent + 1) leaf ++ u ≠ linesText (indent + 1) lines ++ u' := by
    intro leaf lines u u' hlines
    obtain ⟨v, hv⟩ := lines_dash (indent + 1) lines
    rw [hv, List.append_assoc] at hlines
    exact leaf_ne_dash leaf u _ hlines
  match a, b with
  | .last leaf, .last leaf' =>
      rw [linesText, linesText, List.append_assoc, List.append_assoc] at heq
      obtain ⟨rfl, hsame⟩ := leaf_cancel leaf leaf' indent hr.1 hr'.1 (List.append_cancel_left heq)
      exact ⟨rfl, hsame⟩
  | .last leaf, .more leaf' rest' =>
      rw [linesText, linesText, List.append_assoc, List.append_assoc, List.append_assoc] at heq
      have hsame := (leaf_cancel leaf leaf' indent hr.1 (breaks_lines rest' r')
        (List.append_cancel_left heq)).2
      exact absurd hsame (hnot rest' r' hr)
  | .last leaf, .opens rest' =>
      rw [linesText, linesText, List.append_assoc, List.append_assoc] at heq
      exact absurd (List.append_cancel_left heq) (hleaf leaf rest' r r')
  | .more leaf rest, .last leaf' =>
      rw [linesText, linesText, List.append_assoc, List.append_assoc, List.append_assoc] at heq
      have hsame := (leaf_cancel leaf leaf' indent (breaks_lines rest r) hr'.1
        (List.append_cancel_left heq)).2
      exact absurd hsame.symm (hnot rest r hr')
  | .more leaf rest, .more leaf' rest' =>
      rw [linesText, linesText] at heq
      simp only [List.append_assoc] at heq
      obtain ⟨rfl, hsame⟩ := leaf_cancel leaf leaf' indent (breaks_lines rest r)
        (breaks_lines rest' r') (List.append_cancel_left heq)
      obtain ⟨rfl, hend⟩ := lines_cancel rest rest' indent hr hr' hsame
      exact ⟨rfl, hend⟩
  | .more leaf rest, .opens rest' =>
      rw [linesText, linesText, List.append_assoc, List.append_assoc, List.append_assoc] at heq
      exact absurd (List.append_cancel_left heq) (hleaf leaf rest' _ r')
  | .opens rest, .last leaf' =>
      rw [linesText, linesText, List.append_assoc, List.append_assoc] at heq
      exact absurd (List.append_cancel_left heq).symm (hleaf leaf' rest r' r)
  | .opens rest, .more leaf' rest' =>
      rw [linesText, linesText, List.append_assoc, List.append_assoc, List.append_assoc] at heq
      exact absurd (List.append_cancel_left heq).symm (hleaf leaf' rest _ r)
  | .opens rest, .opens rest' =>
      rw [linesText, linesText, List.append_assoc, List.append_assoc] at heq
      obtain ⟨rfl, hsame⟩ := lines_cancel rest rest' indent hr hr' (List.append_cancel_left heq)
      exact ⟨rfl, hsame⟩

/-- **The members of an object can be read off**, up to a line feed. -/
theorem entries_cancel (a b : Entries) (indent : Nat) {r r' : Bytes} (hr : Breaks r)
    (hr' : Breaks r') (heq : entriesText (indent + 1) a ++ r = entriesText (indent + 1) b ++ r') :
    a = b ∧ r = r' := by
  have hindent : 0 < indent + 1 := Nat.succ_pos indent
  match a, b with
  | .last key value, .last key' value' =>
      rw [entriesText, entriesText] at heq
      simp only [List.append_assoc] at heq
      obtain ⟨rfl, hvalue⟩ := key_cancel heq
      obtain ⟨rfl, hsame⟩ := skeleton_cancel value value' (indent + 1) (endsItems_break hindent hr)
        (endsItems_break hindent hr') hvalue
      exact ⟨rfl, (List.cons.inj hsame).2⟩
  | .last key value, .more key' value' rest' =>
      rw [entriesText, entriesText] at heq
      simp only [List.append_assoc, List.cons_append] at heq
      have hsame := (skeleton_cancel value value' (indent + 1) (endsItems_break hindent hr)
        (endsItems_entries rest' r') (key_cancel heq).2).2
      exact absurd (List.cons.inj hsame).2 (breaks_ne_entries hr rest' r')
  | .more key value rest, .last key' value' =>
      rw [entriesText, entriesText] at heq
      simp only [List.append_assoc, List.cons_append] at heq
      have hsame := (skeleton_cancel value value' (indent + 1) (endsItems_entries rest r)
        (endsItems_break hindent hr') (key_cancel heq).2).2
      exact absurd (List.cons.inj hsame).2.symm (breaks_ne_entries hr' rest r)
  | .more key value rest, .more key' value' rest' =>
      rw [entriesText, entriesText] at heq
      simp only [List.append_assoc, List.cons_append] at heq
      obtain ⟨rfl, hvalue⟩ := key_cancel heq
      obtain ⟨rfl, hsame⟩ := skeleton_cancel value value' (indent + 1) (endsItems_entries rest r)
        (endsItems_entries rest' r') hvalue
      obtain ⟨rfl, hend⟩ := entries_cancel rest rest' indent hr hr' (List.cons.inj hsame).2
      exact ⟨rfl, hend⟩

/-- **A skeleton can be read off** what is written. -/
theorem skeleton_cancel (a b : Skeleton) (indent : Nat) {r r' : Bytes}
    (hr : EndsItems (indent + 1) r) (hr' : EndsItems (indent + 1) r')
    (heq : skeletonText (indent + 1) a ++ r = skeletonText (indent + 1) b ++ r') :
    a = b ∧ r = r' := by
  match a, b with
  | .leaf leaf, .leaf leaf' =>
      obtain ⟨rfl, hsame⟩ := leaf_cancel leaf leaf' indent hr.1 hr'.1 heq
      exact ⟨rfl, hsame⟩
  | .leaf leaf, .array lines =>
      obtain ⟨u, hu⟩ := lines_dash (indent + 1) lines
      rw [skeletonText, skeletonText, hu, List.append_assoc] at heq
      exact absurd heq (leaf_ne_dash leaf r _)
  | .array lines, .leaf leaf =>
      obtain ⟨u, hu⟩ := lines_dash (indent + 1) lines
      rw [skeletonText, skeletonText, hu, List.append_assoc] at heq
      exact absurd heq.symm (leaf_ne_dash leaf r' _)
  | .array lines, .array lines' =>
      obtain ⟨rfl, hsame⟩ := lines_cancel lines lines' indent hr hr' heq
      exact ⟨rfl, hsame⟩

end

/-- **Two texts are written alike** exactly when they have one skeleton. -/
theorem internalToYaml_out {a b : Document} (ha : a.Valid) (hb : b.Valid) :
    (internalToYaml a.text).out = (internalToYaml b.text).out ↔
      skeleton a.value = skeleton b.value := by
  rw [(internalToYaml_text ha).2, (internalToYaml_text hb).2]
  have hend : EndsItems (0 + 1) (ascii "\n" ++ [0]) := by
    refine ⟨⟨_, rfl⟩, fun u heq => ?_⟩
    exact absurd (List.cons.inj (List.cons.inj heq).2).1 (by decide)
  constructor
  · intro heq
    exact (skeleton_cancel _ _ 0 hend hend (List.append_cancel_left heq)).1
  · intro hsame
    rw [hsame]

def wordTrue : Document := { before := [], value := .word .true, after := [] }

/-- `"true"`. -/
def stringTrue : Document := { before := [], value := .string (ascii "true"), after := [] }

/-- `"1"`. -/
def stringOne : Document := { before := [], value := .string (ascii "1"), after := [] }

theorem wordTrue_valid : wordTrue.Valid := ⟨IsGap.nil, trivial, IsGap.nil⟩

theorem stringTrue_valid : stringTrue.Valid := ⟨IsGap.nil, isBody_of_plain (by decide), IsGap.nil⟩

theorem stringOne_valid : stringOne.Valid := ⟨IsGap.nil, isBody_of_plain (by decide), IsGap.nil⟩

end BlessStar.Convert.Proofs.YamlDistinctions
