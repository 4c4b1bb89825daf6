import BlessStar.Lib.JsonText

/-!
# Tokens

`to_yaml.c`, `to_toml.c` and `to_ini.c` hold the same scanner under three names.
It reads from the rest of the text, behind which stands a NUL.
-/

namespace BlessStar.Convert

open Lib.ByteString Lib.JsonText

inductive Token
  | eof
  | string (body : Bytes)
  | number (text : Bytes)
  | true
  | false
  | null
  | lbrace
  | rbrace
  | lbracket
  | rbracket
  | colon
  | comma
  deriving DecidableEq

def isGapByte (c : UInt8) : Bool := decide (c ∈ ascii " \t\n\r")

def isNumberByte (c : UInt8) : Bool := decide (c ∈ ascii "0123456789.eE-+")

/-- The loop over a string, up to its quote.  An escape at the end of the text
takes the NUL with it. -/
def stringBody : Bytes → Bytes × Bytes
  | [] => ([], [])
  | c :: s =>
      if c = ch '"' then ([], c :: s)
      else if c = ch '\\' then
        match s with
        | [] => ([c, 0], [])
        | e :: s => (c :: e :: (stringBody s).1, (stringBody s).2)
      else (c :: (stringBody s).1, (stringBody s).2)

/-- `next_token`, `next_tok` and `next_itok`. -/
def nextToken (p : Bytes) : Token × Bytes :=
  match p.dropWhile isGapByte with
  | [] => (.eof, [])
  | c :: p =>
      if c = ch '\x7b' then (.lbrace, p)
      else if c = ch '\x7d' then (.rbrace, p)
      else if c = ch '[' then (.lbracket, p)
      else if c = ch ']' then (.rbracket, p)
      else if c = ch ':' then (.colon, p)
      else if c = ch ',' then (.comma, p)
      else if c = ch '"' then (.string (stringBody p).1, (stringBody p).2.drop 1)
      else if c = ch 't' then if (ascii "rue").isPrefixOf p then (.true, p.drop 3) else (.eof, p)
      else if c = ch 'f' then if (ascii "alse").isPrefixOf p then (.false, p.drop 4) else (.eof, p)
      else if c = ch 'n' then if (ascii "ull").isPrefixOf p then (.null, p.drop 3) else (.eof, p)
      else if c ∈ ascii "-0123456789" then
        (.number (c :: p.takeWhile isNumberByte), p.dropWhile isNumberByte)
      else (.eof, p)

def afterComma (p : Bytes) : Bytes :=
  match nextToken p with
  | (.comma, after) => after
  | _ => p

variable {ws s t r body : Bytes}

theorem nextToken_gap (hws : IsGap ws) (s : Bytes) : nextToken (ws ++ s) = nextToken s := by
  have hall : ∀ c ∈ ws, isGapByte c = Bool.true := fun c hc => decide_eq_true (hws c hc)
  unfold nextToken
  rw [List.dropWhile_append_of_pos hall]

theorem nextToken_eq {c : UInt8} (hc : c ∉ ascii " \t\n\r") (s : Bytes) :
    (c :: s).dropWhile isGapByte = c :: s :=
  List.dropWhile_cons_of_neg (by simpa [isGapByte] using hc)

theorem stringBody_quote (s : Bytes) : stringBody (ch '"' :: s) = ([], ch '"' :: s) := by
  rw [stringBody.eq_def]
  dsimp only
  rw [if_pos rfl]

theorem stringBody_escape (e : UInt8) (s : Bytes) :
    stringBody (ch '\\' :: e :: s) = (ch '\\' :: e :: (stringBody s).1, (stringBody s).2) := by
  rw [stringBody.eq_def]
  dsimp only
  rw [if_neg (by decide), if_pos rfl]

theorem stringBody_byte {c : UInt8} (hquote : c ≠ ch '"') (hslash : c ≠ ch '\\') (s : Bytes) :
    stringBody (c :: s) = (c :: (stringBody s).1, (stringBody s).2) := by
  rw [stringBody.eq_def]
  dsimp only
  rw [if_neg hquote, if_neg hslash]

theorem stringBody_hex {d : UInt8} (hd : (digitValue 16 d).isSome) (s : Bytes) :
    stringBody (d :: s) = (d :: (stringBody s).1, (stringBody s).2) := by
  have hne : ∀ c ∈ ascii "\"\\", d ≠ c := by
    rintro c hc rfl
    exact absurd hd ((by decide : ∀ c ∈ ascii "\"\\", ¬(digitValue 16 c).isSome) d hc)
  exact stringBody_byte (hne _ (by decide)) (hne _ (by decide)) s

theorem stringBody_append (hb : IsBody body) (r : Bytes) :
    stringBody (body ++ ch '"' :: r) = (body, ch '"' :: r) := by
  induction hb with
  | nil => exact stringBody_quote r
  | @raw c s hc hquote hslash hs ih =>
      rw [List.cons_append, stringBody_byte hquote hslash, ih]
  | @escape e s he hs ih =>
      rw [List.cons_append, List.cons_append, stringBody_escape, ih]
  | @unicode d₁ d₂ d₃ d₄ s hd hs ih =>
      simp only [List.forall_mem_cons] at hd
      simp only [List.cons_append]
      rw [stringBody_escape, stringBody_hex hd.1, stringBody_hex hd.2.1, stringBody_hex hd.2.2.1,
        stringBody_hex hd.2.2.2.1, ih]

theorem nextToken_string (hb : IsBody body) (r : Bytes) :
    nextToken (ch '"' :: (body ++ ch '"' :: r)) = (.string body, r) := by
  have hscan : nextToken (ch '"' :: (body ++ ch '"' :: r)) =
      (.string (stringBody (body ++ ch '"' :: r)).1,
        (stringBody (body ++ ch '"' :: r)).2.drop 1) := rfl
  rw [hscan, stringBody_append hb]
  rfl

def EndsNumber (r : Bytes) : Prop := ∀ c ∈ r.head?, c ∉ ascii "0123456789.eE-+"

theorem EndsNumber.gap {after : Bytes} (hafter : IsGap after) {c : UInt8}
    (hc : c ∈ ascii ",]\x7d") (r : Bytes) : EndsNumber (after ++ c :: r) := by
  intro d hd
  cases after with
  | nil =>
      obtain rfl : c = d := by simpa using hd
      exact (by decide : ∀ c ∈ ascii ",]\x7d", c ∉ ascii "0123456789.eE-+") c hc
  | cons e after =>
      obtain rfl : e = d := by simpa using hd
      exact (by decide : ∀ c ∈ ascii " \t\n\r", c ∉ ascii "0123456789.eE-+") e
        (hafter e List.mem_cons_self)

theorem EndsNumber.of_isGap {after : Bytes} (hafter : IsGap after) : EndsNumber after := by
  intro d hd
  obtain ⟨s, rfl⟩ : ∃ s, after = d :: s := by
    cases after with
    | nil => simp at hd
    | cons e s => exact ⟨s, by simpa using hd⟩
  exact (by decide : ∀ c ∈ ascii " \t\n\r", c ∉ ascii "0123456789.eE-+") d
    (hafter d List.mem_cons_self)

theorem takeWhile_number (hs : ∀ c ∈ s, c ∈ ascii "0123456789.eE-+") (hr : EndsNumber r) :
    (s ++ r).takeWhile isNumberByte = s ∧ (s ++ r).dropWhile isNumberByte = r := by
  have hall : ∀ c ∈ s, isNumberByte c = Bool.true := fun c hc => decide_eq_true (hs c hc)
  rw [List.takeWhile_append_of_pos hall, List.dropWhile_append_of_pos hall]
  cases r with
  | nil => exact ⟨List.append_nil s, rfl⟩
  | cons c r =>
      have hc : ¬isNumberByte c = Bool.true := by
        simpa [isNumberByte] using hr c rfl
      rw [List.takeWhile_cons_of_neg hc, List.dropWhile_cons_of_neg hc]
      exact ⟨List.append_nil s, rfl⟩

theorem nextToken_number (ht : IsNumber t) (hr : EndsNumber r) :
    nextToken (t ++ r) = (.number t, r) := by
  have hmem := ht.forall (· ∈ ascii "0123456789.eE-+") (by decide)
  obtain ⟨c, s, rfl, hc⟩ := ht.head
  obtain ⟨htake, hdrop⟩ := takeWhile_number (fun d hd => hmem d (List.mem_cons_of_mem c hd)) hr
  have hhead : c ∈ ascii "-0123456789" := by
    rcases hc with hdigit | rfl
    · exact (by decide : ∀ c ∈ ascii "0123456789", c ∈ ascii "-0123456789") c (mem_digits hdigit)
    · decide
  have hne : ∀ d ∈ ascii " \t\n\r\x7b\x7d[]:,\"tfn", c ≠ d := by
    rintro d hd rfl
    exact (by decide : ∀ c ∈ ascii "-0123456789", c ∉ ascii " \t\n\r\x7b\x7d[]:,\"tfn") c hhead hd
  have hgap : c ∉ ascii " \t\n\r" := fun h =>
    (by decide : ∀ c ∈ ascii "-0123456789", c ∉ ascii " \t\n\r") c hhead h
  unfold nextToken
  rw [List.cons_append, nextToken_eq hgap]
  dsimp only
  rw [if_neg (hne _ (by decide)), if_neg (hne _ (by decide)), if_neg (hne _ (by decide)),
    if_neg (hne _ (by decide)), if_neg (hne _ (by decide)), if_neg (hne _ (by decide)),
    if_neg (hne _ (by decide)), if_neg (hne _ (by decide)), if_neg (hne _ (by decide)),
    if_neg (hne _ (by decide)), if_pos hhead, htake, hdrop]

def wordToken : Word → Token
  | .true => .true
  | .false => .false
  | .null => .null

theorem nextToken_word (w : Word) (r : Bytes) : nextToken (w.text ++ r) = (wordToken w, r) := by
  cases w <;> rfl

theorem nextToken_key {key : MemberKey} (hkey : key.Valid) (s : Bytes) :
    ∃ p, nextToken (key.text ++ s) = (.string key.body, p) ∧
      nextToken p = (.colon, key.afterColon ++ s) := by
  refine ⟨key.beforeColon ++ ch ':' :: (key.afterColon ++ s), ?_, ?_⟩
  · rw [MemberKey.text, List.append_assoc, nextToken_gap hkey.before, List.cons_append,
      List.append_assoc, List.cons_append, List.append_assoc, List.cons_append]
    exact nextToken_string hkey.body _
  · rw [nextToken_gap hkey.beforeColon]
    rfl

theorem nextToken_close {after : Bytes} (hafter : IsGap after) {c : UInt8} {tok : Token}
    (hc : nextToken (c :: r) = (tok, r)) : nextToken (after ++ c :: r) = (tok, r) := by
  rw [nextToken_gap hafter, hc]

theorem afterComma_comma {after : Bytes} (hafter : IsGap after) (r : Bytes) :
    afterComma (after ++ ch ',' :: r) = r := by
  have hcomma : nextToken (after ++ ch ',' :: r) = (.comma, r) := nextToken_close hafter rfl
  rw [afterComma, hcomma]

theorem afterComma_close {after : Bytes} {c : UInt8} (hc : c = ch ']' ∨ c = ch '\x7d') (hafter : IsGap after)
    (r : Bytes) : afterComma (after ++ c :: r) = after ++ c :: r := by
  rw [afterComma, nextToken_gap hafter]
  rcases hc with rfl | rfl <;> rfl

theorem exists_key (members : Members) (hv : members.Valid) (r : Bytes) :
    ∃ key : MemberKey, key.Valid ∧ ∃ s, members.text ++ r = key.text ++ s := by
  cases members with
  | last key value after =>
      exact ⟨key, hv.1, _, by rw [Members.text, List.append_assoc]⟩
  | more key value after rest =>
      exact ⟨key, hv.1, _, by rw [Members.text, List.append_assoc]⟩

end BlessStar.Convert
