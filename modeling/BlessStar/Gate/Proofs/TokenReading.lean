import BlessStar.Gate.Ast
import Mathlib.Data.Bool.AllAny

/-!
# Reading spelled tokens

The tokenizer gives back the tokens that a text spells.
-/

namespace BlessStar.Gate.Proofs.TokenReading

open Lib.ByteString

theorem scanString_spelling {s t : Bytes} (h : SpellsString s t) (rest : Bytes) :
    scanString (t ++ ch '"' :: rest) = some (s, rest) := by
  induction h with
  | nil => exact scanString_quote rest
  | raw _ hquote hslash _ ih => rw [List.cons_append, scanString_raw hquote hslash, ih]; rfl
  | escape _ _ ih => rw [List.cons_append, List.cons_append, scanString_escape, ih]; rfl

theorem not_zero_mem_string {s t : Bytes} (h : SpellsString s t) : (0 : UInt8) ∉ t := by
  induction h with
  | nil => simp
  | raw hzero _ _ _ ih => simp [hzero.symm, ih]
  | escape hc _ ih =>
      have hne : ∀ c ∈ ascii "\"\\/nrt", (0 : UInt8) ≠ c :=
        List.all_iff_forall_prop.mp (by decide)
      have hslash : (0 : UInt8) ≠ ch '\\' := by decide
      simp [hslash, hne _ hc, ih]

section

variable {ν : Type} (D : CDouble ν)

theorem lexToken_string {t : Bytes} {s : Bytes} (h : SpellsString s t) (rest : Bytes) :
    lexToken D (ch '"') (t ++ ch '"' :: rest) = ⟨.string s, rest⟩ := by
  have hscan := scanString_spelling h rest
  have h1 : ch '"' ≠ ch '\x7b' ∧ ch '"' ≠ ch '\x7d' ∧ ch '"' ≠ ch '[' ∧ ch '"' ≠ ch ']' ∧
      ch '"' ≠ ch ',' ∧ ch '"' ≠ ch ':' := by decide
  simp [lexToken, h1, hscan]

theorem lexToken_spelling {tok : Astok ν} {x : Bytes} (h : SpellsToken tok x) (rest : Bytes) :
    ∃ c x', x = c :: x' ∧ isBlank c = false ∧ lexToken D c (x' ++ rest) = ⟨tok, rest⟩ := by
  cases h with
  | lbrace => exact ⟨ch '\x7b', [], rfl, rfl, rfl⟩
  | rbrace => exact ⟨ch '\x7d', [], rfl, rfl, rfl⟩
  | comma => exact ⟨ch ',', [], rfl, rfl, rfl⟩
  | colon => exact ⟨ch ':', [], rfl, rfl, rfl⟩
  | @string s t hs =>
      refine ⟨ch '"', t ++ [ch '"'], rfl, rfl, ?_⟩
      rw [List.append_assoc]
      exact lexToken_string D hs rest

theorem isBlank_of_mem : ∀ c ∈ ascii " \t\n\r", isBlank c = true :=
  List.all_iff_forall_prop.mp (by decide)

theorem lex_spelling {ws x : Bytes} {tok : Astok ν} (hws : ∀ c ∈ ws, c ∈ ascii " \t\n\r")
    (h : SpellsToken tok x) (rest : Bytes) : lex D (ws ++ (x ++ rest)) = ⟨tok, rest⟩ := by
  obtain ⟨c, x', rfl, hblank, htok⟩ := lexToken_spelling D h rest
  have hdrop : (ws ++ (c :: x' ++ rest)).dropWhile isBlank = c :: (x' ++ rest) := by
    rw [List.dropWhile_append_of_pos fun b hb => isBlank_of_mem b (hws b hb), List.cons_append,
      List.dropWhile_cons_of_neg (by simp [hblank])]
  simp only [lex, hdrop, htok]

def Reads : Asparse ν → List (Astok ν) → Prop
  | _, [] => True
  | p, t :: ts => p.tok = t ∧ Reads (asparseAdvance D p) ts

/-- **The tokenizer reads back what a text spells.** -/
theorem reads_lex {ts : List (Astok ν)} {text : Bytes} (h : Spells ts text) :
    Reads D (lex D text) ts := by
  induction h with
  | nil _ => trivial
  | cons hws htok _ ih =>
      rw [lex_spelling D hws htok]
      exact ⟨rfl, ih⟩

end

theorem not_zero_mem_token {ν : Type} {tok : Astok ν} {x : Bytes} (h : SpellsToken tok x) :
    (0 : UInt8) ∉ x := by
  cases h with
  | lbrace | rbrace | comma | colon => decide
  | string hs =>
      have hquote : (0 : UInt8) ≠ ch '"' := by decide
      simp [hquote, not_zero_mem_string hs]

theorem not_zero_mem_text {ν : Type} {ts : List (Astok ν)} {text : Bytes} (h : Spells ts text) :
    (0 : UInt8) ∉ text := by
  have hblank : ∀ ws : Bytes, (∀ c ∈ ws, c ∈ ascii " \t\n\r") → (0 : UInt8) ∉ ws := by
    intro ws hws h0
    exact absurd (hws 0 h0) (by decide)
  induction h with
  | nil hws => exact hblank _ hws
  | cons hws htok _ ih => simp [hblank _ hws, not_zero_mem_token htok, ih]

theorem length_le_of_spells {ν : Type} {ts : List (Astok ν)} {text : Bytes} (h : Spells ts text) :
    ts.length ≤ text.length := by
  induction h with
  | nil _ => simp
  | @cons tok ts ws x y _ htok _ ih =>
      have hpos : 0 < x.length := by
        cases htok <;> exact Nat.succ_pos _
      simp only [List.length_cons, List.length_append]
      omega

theorem scanString_length {s v rest : Bytes} (h : scanString s = some (v, rest)) :
    v.length + rest.length < s.length := by
  induction hlen : s.length using Nat.strong_induction_on generalizing s v rest with
  | _ n ih =>
      cases s with
      | nil => simp [scanString] at h
      | cons c s =>
          by_cases hquote : c = ch '"'
          · rw [hquote, scanString_quote] at h
            simp only [Option.some.injEq, Prod.mk.injEq] at h
            obtain ⟨rfl, rfl⟩ := h
            simpa using hlen.le
          by_cases hslash : c = ch '\\'
          · cases s with
            | nil =>
                have hne : ch '\\' ≠ ch '"' := by decide
                simp [scanString, hslash, hne] at h
            | cons e s =>
                rw [hslash, scanString_escape, Option.map_eq_some_iff] at h
                obtain ⟨⟨v', rest'⟩, hscan, heq⟩ := h
                simp only [Prod.mk.injEq] at heq
                obtain ⟨rfl, rfl⟩ := heq
                simp only [List.length_cons] at hlen ⊢
                have hlt := ih s.length (by omega) hscan rfl
                omega
          · rw [scanString_raw hquote hslash, Option.map_eq_some_iff] at h
            obtain ⟨⟨v', rest'⟩, hscan, heq⟩ := h
            simp only [Prod.mk.injEq] at heq
            obtain ⟨rfl, rfl⟩ := heq
            simp only [List.length_cons] at hlen ⊢
            have hlt := ih s.length (by omega) hscan rfl
            omega

section

variable {ν : Type} {D : CDouble ν}

theorem lexToken_rest_le {c : UInt8} {rest : Bytes} :
    (lexToken D c rest).tok.isEnd = false → (lexToken D c rest).rest.length ≤ rest.length := by
  have keep : ∀ t : Astok ν, (⟨t, rest⟩ : Asparse ν).tok.isEnd = false → rest.length ≤ rest.length :=
    fun _ _ => Nat.le_refl _
  have drop : ∀ (t : Astok ν) n, 0 < n → (⟨t, (c :: rest).drop n⟩ : Asparse ν).tok.isEnd = false →
      ((c :: rest).drop n).length ≤ rest.length := by
    intro t n hn _
    simp only [List.length_drop, List.length_cons]
    omega
  have stop : ∀ s, (⟨.error, s⟩ : Asparse ν).tok.isEnd = false → s.length ≤ rest.length :=
    fun _ h => nomatch h
  unfold lexToken
  -- the brackets, the comma and the colon
  iterate 6 refine iteInduction (motive := fun p : Asparse ν =>
    p.tok.isEnd = false → p.rest.length ≤ rest.length) (fun _ => keep _) fun _ => ?_
  refine iteInduction (motive := fun p : Asparse ν =>
    p.tok.isEnd = false → p.rest.length ≤ rest.length) (fun _ => ?_) fun _ => ?_
  · cases hscan : scanString rest with
    | none => exact stop []
    | some r =>
        intro _
        have hlen := scanString_length hscan
        show r.2.length ≤ rest.length
        omega
  -- the three words
  iterate 3 refine iteInduction (motive := fun p : Asparse ν =>
    p.tok.isEnd = false → p.rest.length ≤ rest.length) (fun _ => drop _ _ (by decide)) fun _ => ?_
  refine iteInduction (motive := fun p : Asparse ν =>
    p.tok.isEnd = false → p.rest.length ≤ rest.length) (fun _ => ?_) fun _ => stop _
  exact iteInduction (motive := fun p : Asparse ν =>
    p.tok.isEnd = false → p.rest.length ≤ rest.length) (fun hnum => drop _ _ hnum) fun _ => stop _

theorem lex_rest_lt {text : Bytes} (h : (lex D text).tok.isEnd = false) :
    (lex D text).rest.length < text.length := by
  have hdrop := (List.dropWhile_suffix (l := text) isBlank).length_le
  unfold lex at h ⊢
  cases hd : text.dropWhile isBlank with
  | nil => rw [hd] at h; cases h
  | cons c rest =>
      rw [hd] at h hdrop
      have hle := lexToken_rest_le h
      simp only [List.length_cons] at hdrop
      show (lexToken D c rest).rest.length < text.length
      omega

theorem length_le_rest {ts : List (Astok ν)} {p : Asparse ν}
    (h : Reads D (asparseAdvance D p) ts) (hplain : ∀ t ∈ ts, t.isEnd = false) :
    ts.length ≤ p.rest.length := by
  induction ts generalizing p with
  | nil => exact Nat.zero_le _
  | cons t ts ih =>
      obtain ⟨htok, hrest⟩ := h
      have hend : (lex D p.rest).tok.isEnd = false := by
        have hhead := hplain t List.mem_cons_self
        rw [← htok] at hhead
        exact hhead
      have hlt := lex_rest_lt hend
      have hle := ih hrest fun t ht => hplain t (List.mem_cons_of_mem _ ht)
      have hsame : (asparseAdvance D p).rest.length = (lex D p.rest).rest.length := rfl
      rw [List.length_cons]
      omega

end

section

variable {ν : Type}

theorem spells_printString {s : Bytes} (h : (0 : UInt8) ∉ s) : SpellsString s (printString s) := by
  induction s with
  | nil => exact .nil
  | cons c s ih =>
      rw [List.mem_cons, not_or] at h
      rw [printString, List.flatMap_cons]
      by_cases hc : c = ch '"' ∨ c = ch '\\'
      · have hself : unescape c = c := by rcases hc with rfl | rfl <;> decide
        have hmem : c ∈ ascii "\"\\/nrt" := by rcases hc with rfl | rfl <;> decide
        have hesc := SpellsString.escape hmem (ih h.2)
        rw [hself] at hesc
        rw [if_pos hc]
        exact hesc
      · rw [if_neg hc]
        rw [not_or] at hc
        exact .raw (Ne.symm h.1) hc.1 hc.2 (ih h.2)

theorem spells_append {ts us : List (Astok ν)} {x y : Bytes} (hx : Spells ts x)
    (hy : Spells us y) : Spells (ts ++ us) (x ++ y) := by
  induction hx with
  | @nil ws hws =>
      have hblank : ∀ ws', (∀ c ∈ ws', c ∈ ascii " \t\n\r") →
          ∀ c ∈ ws ++ ws', c ∈ ascii " \t\n\r" := by
        intro ws' hws' c hc
        exact (List.mem_append.mp hc).elim (hws c) (hws' c)
      cases hy with
      | nil hws' => exact .nil (hblank _ hws')
      | cons hws' htok hts =>
          rw [← List.append_assoc]
          exact .cons (hblank _ hws') htok hts
  | cons hws htok _ ih =>
      rw [List.append_assoc, List.append_assoc]
      exact .cons hws htok ih

theorem spells_token {tok : Astok ν} {x : Bytes} (h : SpellsToken tok x) : Spells [tok] x := by
  have hnil : ∀ c ∈ ([] : Bytes), c ∈ ascii " \t\n\r" := by simp
  have hone := Spells.cons hnil h (Spells.nil hnil)
  rwa [List.nil_append, List.append_nil] at hone

theorem spells_quoted {s : Bytes} (h : (0 : UInt8) ∉ s) :
    Spells [Astok.string (ν := ν) s] (quoted s) :=
  spells_token (.string (spells_printString h))

theorem spells_member {key : String} {ts : List (Astok ν)} {x : Bytes}
    (hkey : (0 : UInt8) ∉ ascii key) (h : Spells ts x) :
    Spells (GateAst.member key ts) (printMember key x) :=
  spells_append (spells_append (spells_append (spells_token .comma) (spells_quoted hkey))
    (spells_token .colon)) h

theorem spells_object {type : String} {ms : List (List (Astok ν))} {x : Bytes}
    (htype : (0 : UInt8) ∉ ascii type) (h : Spells ms.flatten x) :
    Spells (GateAst.object type ms) (printObject type x) := by
  have hkey : (0 : UInt8) ∉ ascii "type" := by decide
  have hopen := spells_append (spells_token (ν := ν) .lbrace) (spells_quoted hkey)
  have hhead := spells_append (spells_append hopen (spells_token .colon)) (spells_quoted htype)
  have hall := spells_append (spells_append hhead h) (spells_token .rbrace)
  simpa [GateAst.object, printObject] using hall

/-- **Every AST over C strings has a JSON text.** -/
theorem exists_tokens {a : GateAst} (h : a.NoNul) :
    ∃ ts : List (Astok ν), a.Tokens ts ∧ Spells ts a.json := by
  have two : ∀ {k1 k2 : String} {t1 t2 : List (Astok ν)} {x1 x2 : Bytes},
      (0 : UInt8) ∉ ascii k1 → (0 : UInt8) ∉ ascii k2 → Spells t1 x1 → Spells t2 x2 →
      Spells [GateAst.member k1 t1, GateAst.member k2 t2].flatten
        (printMember k1 x1 ++ printMember k2 x2) := by
    intro k1 k2 t1 t2 x1 x2 hk1 hk2 h1 h2
    rw [List.flatten_cons, List.flatten_singleton]
    exact spells_append (spells_member hk1 h1) (spells_member hk2 h2)
  induction a with
  | condition f op v =>
      refine ⟨_, .condition (.refl _), spells_object (by decide) ?_⟩
      have hfield := spells_member (by decide : (0 : UInt8) ∉ ascii "field") (spells_quoted (ν := ν) h.1)
      have hrest := two (by decide : (0 : UInt8) ∉ ascii "op") (by decide : (0 : UInt8) ∉ ascii "value")
        (spells_quoted h.2.1)
        (spells_quoted h.2.2)
      rw [List.flatten_cons, List.append_assoc]
      exact spells_append hfield hrest
  | and l r ihl ihr =>
      obtain ⟨tl, htl, hsl⟩ := ihl h.1
      obtain ⟨tr, htr, hsr⟩ := ihr h.2
      exact ⟨_, .and htl htr (.refl _),
        spells_object (by decide) (two (by decide) (by decide) hsl hsr)⟩
  | or l r ihl ihr =>
      obtain ⟨tl, htl, hsl⟩ := ihl h.1
      obtain ⟨tr, htr, hsr⟩ := ihr h.2
      exact ⟨_, .or htl htr (.refl _),
        spells_object (by decide) (two (by decide) (by decide) hsl hsr)⟩
  | not a ih =>
      obtain ⟨t, ht, hs⟩ := ih h
      refine ⟨_, .not ht, spells_object (by decide) ?_⟩
      rw [List.flatten_singleton]
      exact spells_member (by decide) hs
  | thenDo w d ihw ihd =>
      obtain ⟨tw, htw, hsw⟩ := ihw h.1
      obtain ⟨td, htd, hsd⟩ := ihd h.2
      exact ⟨_, .thenDo htw htd (.refl _),
        spells_object (by decide) (two (by decide) (by decide) hsw hsd)⟩
  | action name v =>
      exact ⟨_, .action (.refl _), spells_object (by decide)
        (two (by decide) (by decide) (spells_quoted h.1) (spells_quoted h.2))⟩

end

end BlessStar.Gate.Proofs.TokenReading
