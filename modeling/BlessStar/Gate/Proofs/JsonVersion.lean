import BlessStar.Gate.Proofs.JsonReading

/-!
# The version of a chain that is read

The version is written without escapes.  With a quote or a backslash in it, the
text that follows is read in another way than it was written; still no later
value can be the version, as all of them are too short.
-/

namespace BlessStar.Gate.Proofs.JsonVersion

open Lib.ByteString TokenReading JsonReading

variable {ν : Type}

/-! ## The parser only advances -/

/-- The parser stands at `q` after some number of tokens from `p`. -/
inductive Ahead (D : CDouble ν) (p : Asparse ν) : Asparse ν → Prop
  | refl : Ahead D p p
  | advance {q : Asparse ν} : Ahead D p q → Ahead D p (asparseAdvance D q)

section

variable {D : CDouble ν}

theorem Ahead.trans {p q r : Asparse ν} (h : Ahead D p q) (h' : Ahead D q r) : Ahead D p r := by
  induction h' with
  | refl => exact h
  | advance _ ih => exact ih.advance

theorem ahead_advance (p : Asparse ν) : Ahead D p (asparseAdvance D p) := Ahead.refl.advance

theorem Ahead.cases_head {p q : Asparse ν} (h : Ahead D p q) :
    q = p ∨ Ahead D (asparseAdvance D p) q := by
  induction h with
  | refl => exact Or.inl rfl
  | advance _ ih =>
      right
      rcases ih with rfl | hq
      · exact .refl
      · exact hq.advance

theorem ahead_skipComma (p : Asparse ν) : Ahead D p (skipComma D p) := by
  unfold skipComma
  split
  · exact ahead_advance p
  · exact .refl

theorem ahead_closeObject (p : Asparse ν) : Ahead D p (closeObject D p) := by
  unfold closeObject
  split
  · exact ahead_advance p
  · exact .refl

theorem ahead_skipLoop (n : Nat) (depth : Int) (p : Asparse ν) :
    Ahead D p (skipLoop D n depth p) := by
  induction n generalizing depth p with
  | zero => exact .refl
  | succ n ih =>
      unfold skipLoop
      split
      · exact .refl
      · exact .refl
      · split
        · exact .refl
        · exact (ahead_advance p).trans (ih _ _)

theorem ahead_skipNested (p : Asparse ν) : Ahead D p (skipNested D p) := by
  unfold skipNested
  dsimp only
  split
  · exact ahead_skipLoop ..
  · exact (ahead_skipLoop ..).advance

theorem ahead_skipValue (p : Asparse ν) : Ahead D p (skipValue D p) := by
  unfold skipValue
  split
  · exact ahead_skipNested p
  · exact ahead_skipNested p
  · exact ahead_advance p

end

section

variable {D : CNumber ν}

theorem ahead_parse (n : Nat) :
    (∀ p node r, parseMembers D n p node = some r → Ahead D.toCDouble p r.2) ∧
      (∀ p r, parseNode D n p = some r → Ahead D.toCDouble p r.2) ∧
      (∀ p r, parseNodes D n p = some r → Ahead D.toCDouble p r.2) ∧
      (∀ p r, parseNodeArray D n p = some r → Ahead D.toCDouble p r.2) := by
  induction n with
  | zero =>
      refine ⟨?_, ?_, ?_, ?_⟩
      · intro p node r h
        simp [parseMembers] at h
      · intro p r h
        simp [parseNode] at h
      · intro p r h
        simp [parseNodes] at h
      · intro p r h
        simp [parseNodeArray] at h
  | succ n ih =>
      obtain ⟨ihMembers, ihNode, ihNodes, ihArray⟩ := ih
      have hstart : ∀ p : Asparse ν, Ahead D.toCDouble p
          (asparseAdvance D.toCDouble (asparseAdvance D.toCDouble p)) :=
        fun p => (ahead_advance p).advance
      refine ⟨?_, ?_, ?_, ?_⟩
      · intro p node r h
        rw [parseMembers] at h
        split at h
        · next key hkey =>
            dsimp only at h
            by_cases hcolon : (asparseAdvance D.toCDouble p).tok.isColon = false
            · rw [if_pos hcolon] at h
              cases h
              exact ahead_advance p
            · rw [if_neg hcolon] at h
              have hgo : ∀ q node', Ahead D.toCDouble
                  (asparseAdvance D.toCDouble (asparseAdvance D.toCDouble p)) q →
                  parseMembers D n (skipComma D.toCDouble q) node' = some r →
                  Ahead D.toCDouble p r.2 := fun q node' hq hr =>
                (hstart p).trans (hq.trans ((ahead_skipComma q).trans (ihMembers _ _ _ hr)))
              split at h
              · exact hgo _ _ (ahead_advance _) h
              · split_ifs at h
                · split at h
                  · cases h
                  · next arr q hq => exact hgo q _ (ihArray _ _ hq) h
                · split at h
                  · cases h
                  · next arr q hq => exact hgo q _ (ihArray _ _ hq) h
                · exact hgo _ _ (ahead_skipValue _) h
              · exact hgo _ _ (ahead_skipValue _) h
        · cases h
          exact .refl
      · intro p r h
        rw [parseNode, Option.map_eq_some_iff] at h
        obtain ⟨r', hr', rfl⟩ := h
        exact ((ahead_advance p).trans (ihMembers _ _ _ hr')).trans (ahead_closeObject _)
      · intro p r h
        rw [parseNodes] at h
        split at h
        · simp only [Option.some.injEq] at h
          rw [← h]
          exact .refl
        · split at h
          · cases h
          · next node q hq =>
              rw [Option.map_eq_some_iff] at h
              obtain ⟨r', hr', rfl⟩ := h
              exact (ihNode _ _ hq).trans ((ahead_skipComma q).trans (ihNodes _ r' hr'))
      · intro p r h
        rw [parseNodeArray, Option.map_eq_some_iff] at h
        obtain ⟨r', hr', rfl⟩ := h
        have hnodes := (ahead_advance p).trans (ihNodes _ _ hr')
        dsimp only
        split
        · exact hnodes
        · exact hnodes.advance

theorem ahead_parseChainValue {n : Nat} {key : Bytes} {p p' : Asparse ν} {chain chain' : GateChain}
    (h : parseChainValue D n key p chain = some (chain', p')) : Ahead D.toCDouble p p' := by
  obtain ⟨-, hnode, -, harray⟩ := ahead_parse (D := D) n
  unfold parseChainValue at h
  split_ifs at h
  · split at h
    · cases h
      exact ahead_advance p
    · cases h
      exact ahead_advance p
  · split at h
    · obtain ⟨r, hr, heq⟩ := Option.map_eq_some_iff.mp h
      cases heq
      exact hnode _ _ hr
    · cases h
      exact ahead_advance p
    · cases h
      exact .refl
  · split at h
    · obtain ⟨r, hr, heq⟩ := Option.map_eq_some_iff.mp h
      cases heq
      exact harray _ _ hr
    · cases h
      exact ahead_skipValue p
  · cases h
    exact ahead_skipValue p

/-! ## Where the version comes from -/

/-- A key `version` with the string `w` stands at `q`. -/
def SetsVersion (D : CDouble ν) (q : Asparse ν) (w : Bytes) : Prop :=
  q.tok = .string (ascii "version") ∧ (asparseAdvance D q).tok = .colon ∧
    (asparseAdvance D (asparseAdvance D q)).tok = .string w

theorem version_of_value {n : Nat} {key : Bytes} {p p' : Asparse ν} {chain chain' : GateChain}
    (h : parseChainValue D n key p chain = some (chain', p')) :
    chain'.version = chain.version ∨
      ∃ w, key = ascii "version" ∧ p.tok = .string w ∧ chain'.version = some w := by
  unfold parseChainValue at h
  split_ifs at h with hkey
  · split at h
    · next w hw =>
        cases h
        exact Or.inr ⟨w, hkey, hw, rfl⟩
    · cases h
      exact Or.inl rfl
  · left
    split at h
    · obtain ⟨r, -, heq⟩ := Option.map_eq_some_iff.mp h
      cases heq
      rfl
    · cases h
      rfl
    · cases h
      rfl
  · left
    split at h
    · obtain ⟨r, -, heq⟩ := Option.map_eq_some_iff.mp h
      cases heq
      rfl
    · cases h
      rfl
  · cases h
    exact Or.inl rfl

theorem version_of_parseChain {n : Nat} {p : Asparse ν} {chain chain' : GateChain}
    (h : parseChain D n p chain = some (some chain')) :
    chain'.version = chain.version ∨
      ∃ q w, Ahead D.toCDouble p q ∧ SetsVersion D.toCDouble q w ∧ chain'.version = some w := by
  induction n generalizing p chain with
  | zero => simp [parseChain] at h
  | succ n ih =>
      rw [parseChain] at h
      split at h
      · next key hkey =>
          dsimp only at h
          split at h
          · cases h
          · next hcolon =>
              split at h
              · cases h
              · next chain₁ q hvalue =>
                  have hahead := ((ahead_advance p).advance.trans
                    (ahead_parseChainValue hvalue)).trans (ahead_skipComma q)
                  rcases ih h with hsame | ⟨q', w, hq', hsets, hw⟩
                  · rcases version_of_value hvalue with hsame' | ⟨w, rfl, hval, hw⟩
                    · exact Or.inl (hsame.trans hsame')
                    · refine Or.inr ⟨p, w, .refl, ⟨hkey, ?_, hval⟩, hsame.trans hw⟩
                      cases htok : (asparseAdvance D.toCDouble p).tok <;>
                        simp_all [Astok.isColon]
                  · exact Or.inr ⟨q', w, hahead.trans hq', hsets, hw⟩
      · cases h
        exact Or.inl rfl

end

/-! ## Across the end of the version

The version is followed by a quote, `bridge`, a second quote and `root`. -/

def bridge : Bytes := ascii ",\n  "

def afterVersion (body : Bytes) : Bytes := bridge ++ ch '"' :: (ascii "root\":" ++ body)

theorem scan_across (b body : Bytes) :
    ∃ val rest, scanString (b ++ ch '"' :: afterVersion body) = some (val, rest) ∧
      ((∃ b', rest = b' ++ ch '"' :: afterVersion body ∧ val.length + b'.length < b.length) ∨
        (rest = afterVersion body ∧ val.length ≤ b.length) ∨
        (rest = ascii "root\":" ++ body ∧ val.length ≤ b.length + 4)) := by
  induction hlen : b.length using Nat.strong_induction_on generalizing b with
  | _ n ih =>
      have hpush : ∀ (c : UInt8) (k : Nat) (b₁ : Bytes), b₁.length < n → b₁.length + 1 ≤ n →
          ∃ val rest, (scanString (b₁ ++ ch '"' :: afterVersion body)).map
              (fun r => (c :: r.1, r.2)) = some (val, rest) ∧
            ((∃ b', rest = b' ++ ch '"' :: afterVersion body ∧ val.length + b'.length < n) ∨
              (rest = afterVersion body ∧ val.length ≤ n) ∨
              (rest = ascii "root\":" ++ body ∧ val.length ≤ n + 4)) := by
        intro c k b₁ hlt hle
        obtain ⟨val, rest, hscan, hcase⟩ := ih b₁.length hlt b₁ rfl
        refine ⟨c :: val, rest, by rw [hscan]; rfl, ?_⟩
        rcases hcase with ⟨b', hrest, hsum⟩ | ⟨hrest, hval⟩ | ⟨hrest, hval⟩
        · exact Or.inl ⟨b', hrest, by rw [List.length_cons]; omega⟩
        · exact Or.inr (Or.inl ⟨hrest, by rw [List.length_cons]; omega⟩)
        · exact Or.inr (Or.inr ⟨hrest, by rw [List.length_cons]; omega⟩)
      cases b with
      | nil => exact ⟨[], _, scanString_quote _, Or.inr (Or.inl ⟨rfl, Nat.zero_le _⟩)⟩
      | cons c b =>
          rw [List.length_cons] at hlen
          by_cases hquote : c = ch '"'
          · subst hquote
            refine ⟨[], _, scanString_quote _, Or.inl ⟨b, rfl, ?_⟩⟩
            rw [List.length_nil]
            omega
          by_cases hslash : c = ch '\\'
          · subst hslash
            cases b with
            | nil =>
                -- the escaped byte is the closing quote of the version
                have hplain : ∀ c ∈ bridge, c ≠ ch '"' ∧ c ≠ ch '\\' :=
                  List.all_iff_forall_prop.mp (by decide)
                have hscan := scanString_plain hplain (ascii "root\":" ++ body)
                refine ⟨ch '"' :: bridge, _, ?_, Or.inr (Or.inr ⟨rfl, ?_⟩)⟩
                · rw [List.cons_append, List.nil_append, scanString_escape, afterVersion, hscan]
                  rfl
                · rw [← hlen]
                  decide
            | cons e b =>
                rw [List.length_cons] at hlen
                rw [List.cons_append, List.cons_append, scanString_escape]
                exact hpush _ 0 b (by omega) (by omega)
          · rw [List.cons_append, scanString_raw hquote hslash]
            exact hpush _ 0 b (by omega) (by omega)

/-- A token that ends in front of the end of the version, `b'` before it. -/
structure InFront (body b : Bytes) (r : Asparse ν) (b' : Bytes) : Prop where
  rest : r.rest = b' ++ ch '"' :: afterVersion body
  le : b'.length ≤ b.length
  string : ∀ val, r.tok = .string val → val.length + b'.length + 2 ≤ b.length
  colon : r.tok = .colon → b'.length < b.length

def Across (body b : Bytes) (r : Asparse ν) : Prop :=
  (∃ val, r.tok = .string val ∧ val.length ≤ b.length + 4) ∧
    (r.rest = afterVersion body ∨ r.rest = ascii "root\":" ++ body)

def Crosses (body b : Bytes) (r : Asparse ν) : Prop :=
  (∃ b', InFront body b r b') ∨ Across body b r

theorem take_no_quote {n : Nat} {x y : Bytes} (h : ch '"' ∉ (x ++ ch '"' :: y).take n) :
    n ≤ x.length := by
  by_contra hlt
  apply h
  rw [List.mem_iff_getElem?]
  refine ⟨x.length, ?_⟩
  rw [List.getElem?_take_of_lt (by omega), List.getElem?_append_right (Nat.le_refl _)]
  simp

section

variable {D : CNumber ν}

theorem lexToken_across (hD : StrtodSpec D) (c : UInt8) (b body : Bytes) :
    Crosses body (c :: b) (lexToken D.toCDouble c (b ++ ch '"' :: afterVersion body)) := by
  have keep : ∀ t : Astok ν, (∀ val, t ≠ .string val) →
      Crosses body (c :: b) ⟨t, b ++ ch '"' :: afterVersion body⟩ :=
    fun t ht => Or.inl ⟨b, rfl, Nat.le_succ _, fun val hval => absurd hval (ht val),
      fun _ => Nat.lt_succ_self _⟩
  have drop : ∀ (t : Astok ν) (n : Nat), (∀ val, t ≠ .string val) → t ≠ .colon →
      ch '"' ∉ (c :: (b ++ ch '"' :: afterVersion body)).take n →
      Crosses body (c :: b) ⟨t, (c :: (b ++ ch '"' :: afterVersion body)).drop n⟩ := by
    intro t n ht hcolon hn
    have hle := take_no_quote (x := c :: b) hn
    refine Or.inl ⟨(c :: b).drop n, ?_, ?_, fun val hval => absurd hval (ht val),
      fun h => absurd h hcolon⟩
    · rw [← List.drop_append_of_le_length hle]
      rfl
    · rw [List.length_drop]
      omega
  have stop : Crosses (ν := ν) body (c :: b) ⟨.error, c :: (b ++ ch '"' :: afterVersion body)⟩ :=
    Or.inl ⟨c :: b, rfl, Nat.le_refl _, fun _ h => (nomatch h), fun h => (nomatch h)⟩
  unfold lexToken
  -- the brackets, the comma and the colon
  iterate 6 refine iteInduction (motive := Crosses body (c :: b)) (fun _ => keep _ (by simp))
              fun _ => ?_
  refine iteInduction (motive := Crosses body (c :: b)) (fun _ => ?_) fun _ => ?_
  · obtain ⟨val, rest, hscan, hcase⟩ := scan_across b body
    rw [hscan]
    rcases hcase with ⟨b', hrest, hsum⟩ | ⟨hrest, hval⟩ | ⟨hrest, hval⟩
    · refine Or.inl ⟨b', hrest, ?_, fun val' hval' => ?_, fun h => (nomatch h)⟩
      · rw [List.length_cons]
        omega
      · cases hval'
        rw [List.length_cons]
        omega
    · refine Or.inr ⟨⟨val, rfl, ?_⟩, Or.inl hrest⟩
      rw [List.length_cons]
      omega
    · refine Or.inr ⟨⟨val, rfl, ?_⟩, Or.inr hrest⟩
      rw [List.length_cons]
      omega
  -- the three words
  iterate 3 refine iteInduction (motive := Crosses body (c :: b))
              (fun hword => drop _ _ (by simp) (by simp) (by rw [hword]; decide)) fun _ => ?_
  refine iteInduction (motive := Crosses body (c :: b)) (fun _ => ?_) fun _ => stop
  exact iteInduction (motive := Crosses body (c :: b))
    (fun _ => drop _ _ (by simp) (by simp) (hD.noQuote _)) fun _ => stop

theorem lex_bridge (body : Bytes) :
    lex D.toCDouble (ch '"' :: afterVersion body) = ⟨.string bridge, ascii "root\":" ++ body⟩ := by
  have hplain : ∀ c ∈ bridge, c ≠ ch '"' ∧ c ≠ ch '\\' :=
    List.all_iff_forall_prop.mp (by decide)
  exact lex_string (scanString_plain hplain _)

theorem lex_across (hD : StrtodSpec D) (b body : Bytes) :
    Crosses body b (lex D.toCDouble (b ++ ch '"' :: afterVersion body)) := by
  have hdrop := (List.dropWhile_suffix (l := b) isBlank).length_le
  cases hd : b.dropWhile isBlank with
  | nil =>
      have hlex : lex D.toCDouble (b ++ ch '"' :: afterVersion body) =
          lex D.toCDouble (ch '"' :: afterVersion body) := by
        rw [lex, lex, List.dropWhile_append, hd]
        rfl
      rw [hlex, lex_bridge]
      refine Or.inr ⟨⟨bridge, rfl, ?_⟩, Or.inr rfl⟩
      have hlen : bridge.length = 4 := rfl
      omega
  | cons c b₁ =>
      have hlex : lex D.toCDouble (b ++ ch '"' :: afterVersion body) =
          lexToken D.toCDouble c (b₁ ++ ch '"' :: afterVersion body) := by
        rw [lex, List.dropWhile_append, hd]
        rfl
      rw [hd] at hdrop
      rw [hlex]
      rcases lexToken_across hD c b₁ body with ⟨b', h⟩ | ⟨⟨val, hval, hle⟩, hrest⟩
      · exact Or.inl ⟨b', h.rest, h.le.trans hdrop, fun val hval => (h.string val hval).trans hdrop,
          fun hcolon => (h.colon hcolon).trans_le hdrop⟩
      · exact Or.inr ⟨⟨val, hval, by omega⟩, hrest⟩

/-! ## No version behind the version -/

/-- From here on no key `version` stands before a colon. -/
def NoneAhead (D : CDouble ν) (p : Asparse ν) : Prop :=
  ∀ q, Ahead D p q → ¬(q.tok = .string (ascii "version") ∧ (asparseAdvance D q).tok = .colon)

theorem NoneAhead.advance {p : Asparse ν} (h : NoneAhead D.toCDouble p) :
    NoneAhead D.toCDouble (asparseAdvance D.toCDouble p) :=
  fun q hq => h q ((ahead_advance p).trans hq)

theorem noneAhead_of_head {p : Asparse ν}
    (hp : ¬(p.tok = .string (ascii "version") ∧ (asparseAdvance D.toCDouble p).tok = .colon))
    (h : NoneAhead D.toCDouble (asparseAdvance D.toCDouble p)) : NoneAhead D.toCDouble p := by
  intro q hq
  rcases hq.cases_head with rfl | hq'
  · exact hp
  · exact h q hq'

theorem noneAhead_of_stuck {p : Asparse ν} (htok : ∀ s, p.tok ≠ .string s)
    (hstuck : asparseAdvance D.toCDouble p = p) : NoneAhead D.toCDouble p := by
  intro q hq
  have hsame : q = p := by
    induction hq with
    | refl => rfl
    | advance _ ih => rw [ih, hstuck]
  rw [hsame]
  exact fun h => htok _ h.1

theorem lexToken_ne_eof (c : UInt8) (rest : Bytes) :
    (lexToken D.toCDouble c rest).tok ≠ .eof := by
  have plain : ∀ (t : Astok ν) left, t ≠ .eof → (⟨t, left⟩ : Asparse ν).tok ≠ .eof :=
    fun _ _ h => h
  unfold lexToken
  iterate 6 refine iteInduction (motive := fun r : Asparse ν => r.tok ≠ .eof)
              (fun _ => plain _ _ (by simp)) fun _ => ?_
  refine iteInduction (motive := fun r : Asparse ν => r.tok ≠ .eof) (fun _ => ?_) fun _ => ?_
  · cases scanString rest with
    | none => exact plain _ _ (by simp)
    | some r => exact plain _ _ (by simp)
  iterate 3 refine iteInduction (motive := fun r : Asparse ν => r.tok ≠ .eof)
              (fun _ => plain _ _ (by simp)) fun _ => ?_
  refine iteInduction (motive := fun r : Asparse ν => r.tok ≠ .eof) (fun _ => ?_)
    fun _ => plain _ _ (by simp)
  exact iteInduction (motive := fun r : Asparse ν => r.tok ≠ .eof)
    (fun _ => plain _ _ (by simp)) fun _ => plain _ _ (by simp)

theorem noneAhead_eof {text : Bytes} (h : (lex D.toCDouble text).tok = .eof) :
    NoneAhead D.toCDouble (lex D.toCDouble text) := by
  have hend : lex D.toCDouble text = ⟨.eof, []⟩ := by
    unfold lex at h ⊢
    cases hd : text.dropWhile isBlank with
    | nil => rfl
    | cons c rest =>
        rw [hd] at h
        exact absurd h (lexToken_ne_eof c rest)
  rw [hend]
  exact noneAhead_of_stuck (by simp) rfl

theorem noneAhead_of_reads {ts : List (Astok ν)} {text : Bytes}
    (hchain : (ts ++ [Astok.eof]).IsChain NoVersion)
    (h : Reads D.toCDouble (lex D.toCDouble text) (ts ++ [.eof])) :
    NoneAhead D.toCDouble (lex D.toCDouble text) := by
  induction ts generalizing text with
  | nil => exact noneAhead_eof h.1
  | cons t ts ih =>
      obtain ⟨htok, hreads⟩ := h
      refine noneAhead_of_head ?_ (ih hchain.tail hreads)
      rintro ⟨hversion, hcolon⟩
      have hnext := hchain.rel_head?
      cases ts with
      | nil => exact absurd (hcolon.symm.trans hreads.1) (by simp)
      | cons u ts =>
          have hu : u = .colon := hreads.1.symm.trans hcolon
          exact hnext rfl ⟨htok.symm.trans hversion, hu⟩

theorem noneAhead_root (body : Bytes) :
    NoneAhead D.toCDouble (lex D.toCDouble (ascii "root\":" ++ body)) :=
  noneAhead_of_stuck (fun _ h => nomatch h) rfl

theorem Across.noneAhead {body b : Bytes} {r : Asparse ν}
    (hbody : NoneAhead D.toCDouble (lex D.toCDouble (afterVersion body))) (h : Across body b r) :
    NoneAhead D.toCDouble r := by
  apply noneAhead_of_head
  · rintro ⟨-, hcolon⟩
    rcases h.2 with hrest | hrest
    · rw [asparseAdvance, hrest] at hcolon
      exact nomatch hcolon
    · rw [asparseAdvance, hrest] at hcolon
      exact nomatch hcolon
  · rcases h.2 with hrest | hrest
    · rw [asparseAdvance, hrest]
      exact hbody
    · rw [asparseAdvance, hrest]
      exact noneAhead_root body

theorem ahead_crosses (hD : StrtodSpec D) {b body : Bytes}
    (hbody : NoneAhead D.toCDouble (lex D.toCDouble (afterVersion body))) {q : Asparse ν}
    (h : Ahead D.toCDouble (lex D.toCDouble (b ++ ch '"' :: afterVersion body)) q) :
    (∃ b', InFront body b q b') ∨ NoneAhead D.toCDouble q := by
  induction h with
  | refl =>
      rcases lex_across hD b body with hfront | hacross
      · exact Or.inl hfront
      · exact Or.inr (hacross.noneAhead hbody)
  | @advance q _ ih =>
      rcases ih with ⟨b', hfront⟩ | hnone
      · rw [asparseAdvance, hfront.rest]
        rcases lex_across hD b' body with ⟨b'', hfront'⟩ | hacross
        · refine Or.inl ⟨b'', hfront'.rest, hfront'.le.trans hfront.le, fun val hval => ?_,
            fun hcolon => (hfront'.colon hcolon).trans_le hfront.le⟩
          exact (hfront'.string val hval).trans hfront.le
        · exact Or.inr (hacross.noneAhead hbody)
      · exact Or.inr hnone.advance

/-- **A later version is short.**  It is shorter than the text in front of the
end of the version that is written. -/
theorem later_version_short (hD : StrtodSpec D) {b body : Bytes}
    (hbody : NoneAhead D.toCDouble (lex D.toCDouble (afterVersion body))) {q : Asparse ν}
    {w : Bytes} (h : Ahead D.toCDouble (lex D.toCDouble (b ++ ch '"' :: afterVersion body)) q)
    (hset : SetsVersion D.toCDouble q w) : w.length + 6 ≤ b.length := by
  obtain ⟨hkey, hcolon, hval⟩ := hset
  rcases ahead_crosses hD hbody h with ⟨b₁, hfront⟩ | hnone
  · have hlen := hfront.string _ hkey
    have hseven : (ascii "version").length = 7 := rfl
    have hnext : asparseAdvance D.toCDouble q =
        lex D.toCDouble (b₁ ++ ch '"' :: afterVersion body) := by
      rw [asparseAdvance, hfront.rest]
    rw [hnext] at hcolon hval
    rcases lex_across hD b₁ body with ⟨b₂, hfront'⟩ | ⟨⟨val, hstring, -⟩, -⟩
    · have hlt := hfront'.colon hcolon
      rw [asparseAdvance, hfront'.rest] at hval
      rcases lex_across hD b₂ body with ⟨b₃, hfront''⟩ | ⟨⟨val, hstring, hle⟩, -⟩
      · have hlen' := hfront''.string _ hval
        omega
      · rw [hval, Astok.string.injEq] at hstring
        rw [hstring]
        omega
    · rw [hcolon] at hstring
      cases hstring
  · exact absurd ⟨hkey, hcolon⟩ (hnone q .refl)

end

/-! ## The first value -/

theorem scan_ne_self {rest val left : Bytes} (v : Bytes) (k : Nat)
    (hscan : scanString (v ++ ch '"' :: rest) = some (val, left))
    (hmark : 0 < k ∨ ch '"' ∈ v ∨ ch '\\' ∈ v) : val ≠ List.replicate k (ch '\\') ++ v := by
  have hdiff : ch '"' ≠ ch '\\' := by decide
  induction hlen : v.length using Nat.strong_induction_on generalizing v k val left with
  | _ n ih =>
      cases v with
      | nil =>
          rw [List.nil_append, scanString_quote] at hscan
          have hval : val = [] := by
            simp only [Option.some.injEq, Prod.mk.injEq] at hscan
            exact hscan.1.symm
          rw [hval, List.append_nil]
          intro h
          have hk := congrArg List.length h
          rw [List.length_nil, List.length_replicate] at hk
          simp [← hk] at hmark
      | cons c v =>
          rw [List.length_cons] at hlen
          by_cases hquote : c = ch '"'
          · rw [hquote, List.cons_append, scanString_quote] at hscan
            have hval : val = [] := by
              simp only [Option.some.injEq, Prod.mk.injEq] at hscan
              exact hscan.1.symm
            rw [hval]
            simp
          by_cases hslash : c = ch '\\'
          · subst hslash
            -- the first byte that is read would be a backslash again
            have hmove : List.replicate k (ch '\\') ++ ch '\\' :: v =
                ch '\\' :: (List.replicate k (ch '\\') ++ v) := by
              rw [← List.singleton_append, ← List.append_assoc, ← List.replicate_succ',
                List.replicate_succ, List.cons_append]
            rw [hmove]
            cases v with
            | nil =>
                rw [List.cons_append, List.nil_append, scanString_escape,
                  Option.map_eq_some_iff] at hscan
                obtain ⟨r, -, hr⟩ := hscan
                intro h
                rw [h] at hr
                exact absurd (List.cons.inj (congrArg Prod.fst hr)).1 (by decide)
            | cons e v =>
                rw [List.length_cons] at hlen
                rw [List.cons_append, List.cons_append, scanString_escape,
                  Option.map_eq_some_iff] at hscan
                obtain ⟨⟨val', left'⟩, hscan', hr⟩ := hscan
                intro h
                rw [h] at hr
                obtain ⟨hhead, htail⟩ := List.cons.inj (congrArg Prod.fst hr)
                have he : e = ch '\\' := by
                  unfold unescape at hhead
                  split_ifs at hhead
                  · exact absurd hhead (by decide)
                  · exact absurd hhead (by decide)
                  · exact absurd hhead (by decide)
                  · exact hhead
                subst he
                refine ih v.length (by omega) v (k + 1) hscan' (Or.inl (Nat.succ_pos k)) rfl ?_
                rw [List.replicate_succ', List.append_assoc, List.singleton_append]
                exact htail
          · rw [List.cons_append, scanString_raw hquote hslash, Option.map_eq_some_iff] at hscan
            obtain ⟨⟨val', left'⟩, hscan', hr⟩ := hscan
            have hval : val = c :: val' := (congrArg Prod.fst hr).symm
            rw [hval]
            intro h
            cases k with
            | zero =>
                refine ih v.length (by omega) v 0 hscan' ?_ rfl (List.cons.inj h).2
                simpa [Ne.symm hquote, Ne.symm hslash] using hmark
            | succ k =>
                rw [List.replicate_succ, List.cons_append] at h
                exact hslash (List.cons.inj h).1

end BlessStar.Gate.Proofs.JsonVersion
