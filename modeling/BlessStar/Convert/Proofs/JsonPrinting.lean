import BlessStar.Convert.ToJson

/-!
# Printing JSON again

As long as it fits, the buffer holds the text printed byte by byte.  This is a
text of the same value exactly when every string comes through: a bracket, brace
or comma in a string gets a line feed there, which no string can hold, and the
spaces of a string are dropped as those between tokens are.
-/

namespace BlessStar.Convert.Proofs.JsonPrinting

open Lib.ByteString Lib.JsonText PrettyPrinter

variable {cap : Nat} {p q r : PrettyPrinter} {x y : Bytes}

/-! ## What is printed -/

def spaces (indent : Int) : Bytes := (List.replicate indent.toNat (ascii "  ")).flatten

def newline (indent : Int) : Bytes := ch '\n' :: spaces indent

def printedByte (indent : Int) (c : UInt8) : Bytes :=
  if c = ch '\x7b' ∨ c = ch '[' then c :: newline (indent + 1)
  else if c = ch '\x7d' ∨ c = ch ']' then newline (indent - 1) ++ [c]
  else if c = ch ',' then c :: newline indent
  else if c = ch ':' then [c, ch ' ']
  else if c = ch ' ' ∨ c = ch '\t' ∨ c = ch '\n' ∨ c = ch '\r' then []
  else [c]

def indentAfter (indent : Int) (c : UInt8) : Int :=
  if c = ch '\x7b' ∨ c = ch '[' then indent + 1
  else if c = ch '\x7d' ∨ c = ch ']' then indent - 1
  else indent

def printed : Int → Bytes → Bytes
  | _, [] => []
  | indent, c :: s => printedByte indent c ++ printed (indentAfter indent c) s

def indentAt (indent : Int) (s : Bytes) : Int := s.foldl indentAfter indent

theorem printed_append (indent : Int) (s t : Bytes) :
    printed indent (s ++ t) = printed indent s ++ printed (indentAt indent s) t := by
  induction s generalizing indent with
  | nil => rfl
  | cons c s ih =>
      rw [List.cons_append, printed, ih, printed, List.append_assoc]
      rfl

theorem indentAt_append (indent : Int) (s t : Bytes) :
    indentAt indent (s ++ t) = indentAt (indentAt indent s) t := List.foldl_append

/-! ## The buffer -/

structure Prints (cap : Nat) (x : Bytes) (p q : PrettyPrinter) : Prop where
  grows : p.buf.length ≤ q.buf.length
  fits : q.buf.length < cap → q.buf = p.buf ++ x ∧ q.overrun = p.overrun
  full : cap ≤ q.buf.length → cap ≤ p.buf.length + x.length

theorem Prints.nothing (cap : Nat) (p : PrettyPrinter) : Prints cap [] p p :=
  ⟨Nat.le_refl _, fun _ => ⟨(List.append_nil _).symm, rfl⟩, id⟩

theorem Prints.trans (hp : Prints cap x p q) (hq : Prints cap y q r) : Prints cap (x ++ y) p r := by
  refine ⟨hp.grows.trans hq.grows, fun hlt => ?_, fun hle => ?_⟩
  · obtain ⟨hbuf, hover⟩ := hq.fits hlt
    obtain ⟨hbuf', hover'⟩ := hp.fits (hq.grows.trans_lt hlt)
    exact ⟨by rw [hbuf, hbuf', List.append_assoc], hover.trans hover'⟩
  · have hmore := hq.full hle
    rw [List.length_append]
    rcases Nat.lt_or_ge q.buf.length cap with hlt | hge
    · rw [(hp.fits hlt).1, List.length_append] at hmore
      omega
    · have hfirst := hp.full hge
      omega

theorem Prints.indented (hp : Prints cap x p q) (indent : Int) :
    Prints cap x p { q with indent := indent } :=
  ⟨hp.grows, hp.fits, hp.full⟩

theorem Prints.put (cap : Nat) (c : UInt8) (p : PrettyPrinter) : Prints cap [c] p (p.put cap c) := by
  have hlen : (p.put cap c).buf.length = p.buf.length + 1 := List.length_append
  refine ⟨by omega, fun hlt => ⟨rfl, ?_⟩, fun hle => ?_⟩
  · have hroom : ¬cap ≤ p.buf.length := by omega
    simp [PrettyPrinter.put, hroom]
  · rw [List.length_singleton]
    omega

theorem Prints.pad (cap n : Nat) (p : PrettyPrinter) :
    Prints cap (List.replicate n (ascii "  ")).flatten p (p.pad cap n) := by
  induction n generalizing p with
  | zero => exact .nothing cap p
  | succ n ih =>
      rw [PrettyPrinter.pad]
      split
      · exact ((Prints.put cap _ p).trans (.put cap _ _)).trans (ih _)
      · exact ⟨Nat.le_refl _, fun hlt => by omega, fun hle => Nat.le_add_right_of_le hle⟩

theorem indent_pad (cap n : Nat) (p : PrettyPrinter) : (p.pad cap n).indent = p.indent := by
  induction n generalizing p with
  | zero => rfl
  | succ n ih =>
      rw [PrettyPrinter.pad]
      split
      · exact ih _
      · rfl

theorem char_prints (cap : Nat) (c : UInt8) (p : PrettyPrinter) :
    Prints cap (printedByte p.indent c) p (p.char cap c) ∧
      (p.char cap c).indent = indentAfter p.indent c := by
  unfold PrettyPrinter.char printedByte indentAfter
  dsimp only
  split
  · exact ⟨((Prints.put cap c p).indented _).trans ((Prints.put cap _ _).trans (.pad cap _ _)),
      indent_pad _ _ _⟩
  split
  · exact ⟨((((Prints.nothing cap p).indented _).trans (.put cap _ _)).trans (.pad cap _ _)).trans
      (.put cap c _), indent_pad _ _ _⟩
  split
  · exact ⟨((Prints.put cap c p).trans (.put cap _ _)).trans (.pad cap _ _), indent_pad _ _ _⟩
  split
  · exact ⟨(Prints.put cap c p).trans (.put cap _ _), rfl⟩
  split
  · exact ⟨.nothing cap p, rfl⟩
  · exact ⟨.put cap c p, rfl⟩

theorem loop_prints (cap : Nat) (s : Bytes) (p : PrettyPrinter) :
    Prints cap (printed p.indent s) p (loop cap s p) := by
  induction s generalizing p with
  | nil => exact .nothing cap p
  | cons c s ih =>
      rw [loop]
      split
      · obtain ⟨hchar, hindent⟩ := char_prints cap c p
        have hrest := ih (p.char cap c)
        rw [hindent] at hrest
        exact hchar.trans hrest
      · exact ⟨Nat.le_refl _, fun hlt => by omega, fun hle => Nat.le_add_right_of_le hle⟩

theorem internalToJson_ok {text : Bytes} (hne : text ≠ []) :
    (internalToJson text).rc = 0 ↔ (printed 0 text).length < text.length * 2 + 256 := by
  have hprints : Prints (text.length * 2 + 256) (printed 0 text) {} _ := loop_prints _ text {}
  unfold internalToJson prettyPrintJson
  rw [if_neg hne]
  dsimp only
  split
  · next hfull =>
      have hmore := hprints.full hfull
      rw [show (PrettyPrinter.buf {}).length = 0 from rfl, Nat.zero_add] at hmore
      constructor
      · intro hrc
        exact absurd (show -ENOBUFS = 0 from hrc) (by decide)
      · intro hlt
        omega
  · next hfits =>
      rw [(hprints.fits (Nat.lt_of_not_le hfits)).1, List.nil_append] at hfits
      exact ⟨fun _ => Nat.lt_of_not_le hfits, fun _ => rfl⟩

theorem internalToJson_out {text : Bytes} (hrc : (internalToJson text).rc = 0) :
    (internalToJson text).out = printed 0 text ++ [0] ∧ (internalToJson text).overrun = false := by
  have hprints : Prints (text.length * 2 + 256) (printed 0 text) {} _ := loop_prints _ text {}
  unfold internalToJson prettyPrintJson at hrc ⊢
  by_cases hne : text = []
  · rw [if_pos hne] at hrc
    exact absurd (show -EINVAL = 0 from hrc) (by decide)
  rw [if_neg hne] at hrc ⊢
  dsimp only at hrc ⊢
  split at hrc
  · exact absurd (show -ENOBUFS = 0 from hrc) (by decide)
  · next hfits =>
      obtain ⟨hbuf, hover⟩ := hprints.fits (Nat.lt_of_not_le hfits)
      rw [if_neg hfits]
      exact ⟨by rw [hbuf]; rfl, hover⟩

/-! ## White space and plain bytes -/

def Plain (c : UInt8) : Prop := c ∉ ascii "\x7b\x7d[],: \t\n\r"

instance (c : UInt8) : Decidable (Plain c) := inferInstanceAs (Decidable (¬_))

theorem printedByte_plain {c : UInt8} (hc : Plain c) (indent : Int) :
    printedByte indent c = [c] ∧ indentAfter indent c = indent := by
  have hne : ∀ d ∈ ascii "\x7b\x7d[],: \t\n\r", c ≠ d := fun d hd h => hc (h ▸ hd)
  have hopen : ¬(c = ch '\x7b' ∨ c = ch '[') :=
    not_or.mpr ⟨hne _ (by decide), hne _ (by decide)⟩
  have hclose : ¬(c = ch '\x7d' ∨ c = ch ']') :=
    not_or.mpr ⟨hne _ (by decide), hne _ (by decide)⟩
  have hspace : ¬(c = ch ' ' ∨ c = ch '\t' ∨ c = ch '\n' ∨ c = ch '\r') :=
    not_or.mpr ⟨hne _ (by decide), not_or.mpr ⟨hne _ (by decide),
      not_or.mpr ⟨hne _ (by decide), hne _ (by decide)⟩⟩⟩
  unfold printedByte indentAfter
  constructor
  · rw [if_neg hopen, if_neg hclose, if_neg (hne _ (by decide)), if_neg (hne _ (by decide)),
      if_neg hspace]
  · rw [if_neg hopen, if_neg hclose]

theorem printed_plain {s : Bytes} (hs : ∀ c ∈ s, Plain c) (indent : Int) :
    printed indent s = s ∧ indentAt indent s = indent := by
  induction s with
  | nil => exact ⟨rfl, rfl⟩
  | cons c s ih =>
      obtain ⟨hbyte, hindent⟩ := printedByte_plain (hs c List.mem_cons_self) indent
      obtain ⟨hrest, hlevel⟩ := ih fun d hd => hs d (List.mem_cons_of_mem c hd)
      constructor
      · rw [printed, hbyte, hindent, hrest]
        rfl
      · rw [indentAt, List.foldl_cons, hindent]
        exact hlevel

theorem printed_gap {ws : Bytes} (hws : IsGap ws) (indent : Int) :
    printed indent ws = [] ∧ indentAt indent ws = indent := by
  induction ws with
  | nil => exact ⟨rfl, rfl⟩
  | cons c ws ih =>
      have hbyte : printedByte indent c = [] ∧ indentAfter indent c = indent := by
        have hcases : ∀ c ∈ ascii " \t\n\r",
            c = ch ' ' ∨ c = ch '\t' ∨ c = ch '\n' ∨ c = ch '\r' := by decide
        rcases hcases c (hws c List.mem_cons_self) with rfl | rfl | rfl | rfl <;> exact ⟨rfl, rfl⟩
      obtain ⟨hrest, hlevel⟩ := ih fun d hd => hws d (List.mem_cons_of_mem c hd)
      constructor
      · rw [printed, hbyte.1, hbyte.2, hrest]
        rfl
      · rw [indentAt, List.foldl_cons, hbyte.2]
        exact hlevel

theorem isGap_newline (indent : Int) : IsGap (newline indent) := by
  intro c hc
  rcases List.mem_cons.mp hc with rfl | hc
  · decide
  · obtain ⟨s, hs, hcs⟩ := List.mem_flatten.mp hc
    obtain rfl := (List.mem_replicate.mp hs).2
    exact (by decide : ∀ c ∈ ascii "  ", c ∈ ascii " \t\n\r") c hcs

theorem printed_number {t : Bytes} (ht : IsNumber t) (indent : Int) :
    printed indent t = t ∧ indentAt indent t = indent :=
  printed_plain (ht.forall Plain (by decide)) indent

theorem printed_word (w : Word) (indent : Int) :
    printed indent w.text = w.text ∧ indentAt indent w.text = indent := by
  refine printed_plain ?_ indent
  cases w <;> decide

theorem startsToken_printed {v : Json} (hv : v.Valid) (indent : Int) :
    StartsToken (printed indent v.text) := by
  cases v with
  | string body => exact ⟨_, _, rfl, by decide⟩
  | number text =>
      rw [Json.text, (printed_number hv indent).1]
      exact IsNumber.startsToken hv
  | word w =>
      rw [Json.text, (printed_word w indent).1]
      cases w <;> exact ⟨_, _, rfl, by decide⟩
  | emptyArray ws => exact ⟨_, _, rfl, by decide⟩
  | array items => exact ⟨_, _, rfl, by decide⟩
  | emptyObject ws => exact ⟨_, _, rfl, by decide⟩
  | object members => exact ⟨_, _, rfl, by decide⟩

/-! ## Strings -/

section Strings

variable {body body' : Bytes} {c e : UInt8} {r r' : Bytes}

theorem IsBody.of_raw (hb : IsBody body') (hquote : c ≠ ch '"') (hslash : c ≠ ch '\\')
    (heq : c :: x = body' ++ ch '"' :: r') :
    ∃ s, body' = c :: s ∧ IsBody s ∧ 32 ≤ c ∧ x = s ++ ch '"' :: r' := by
  cases hb with
  | nil => exact absurd (List.cons.inj heq).1 hquote
  | raw hc _ _ hs =>
      obtain ⟨rfl, hrest⟩ := List.cons.inj heq
      exact ⟨_, rfl, hs, hc, hrest⟩
  | escape he hs => exact absurd (List.cons.inj heq).1 hslash
  | unicode hd hs => exact absurd (List.cons.inj heq).1 hslash

theorem IsBody.of_escape (hb : IsBody body') (he : e ∈ ascii "\"\\/bfnrt")
    (heq : ch '\\' :: e :: x = body' ++ ch '"' :: r') :
    ∃ s, body' = ch '\\' :: e :: s ∧ IsBody s ∧ x = s ++ ch '"' :: r' := by
  cases hb with
  | nil => exact absurd (List.cons.inj heq).1 (by decide)
  | raw _ _ hslash _ => exact absurd (List.cons.inj heq).1.symm hslash
  | escape _ hs =>
      obtain ⟨rfl, hrest⟩ := List.cons.inj (List.cons.inj heq).2
      exact ⟨_, rfl, hs, hrest⟩
  | unicode hd hs =>
      obtain ⟨rfl, -⟩ := List.cons.inj (List.cons.inj heq).2
      exact absurd he (by decide)

theorem IsBody.of_unicode {d₁ d₂ d₃ d₄ : UInt8} (hb : IsBody body')
    (heq : ch '\\' :: ch 'u' :: d₁ :: d₂ :: d₃ :: d₄ :: x = body' ++ ch '"' :: r') :
    ∃ s, body' = ch '\\' :: ch 'u' :: d₁ :: d₂ :: d₃ :: d₄ :: s ∧ IsBody s ∧
      x = s ++ ch '"' :: r' := by
  cases hb with
  | nil => exact absurd (List.cons.inj heq).1 (by decide)
  | raw _ _ hslash _ => exact absurd (List.cons.inj heq).1.symm hslash
  | escape he hs =>
      obtain ⟨rfl, -⟩ := List.cons.inj (List.cons.inj heq).2
      exact absurd he (by decide)
  | unicode hd hs =>
      simp only [List.cons_append, List.cons.injEq, true_and] at heq
      obtain ⟨rfl, rfl, rfl, rfl, hrest⟩ := heq
      exact ⟨_, rfl, hs, hrest⟩

theorem plain_hex {d : UInt8} (hd : (digitValue 16 d).isSome) : Plain d := by
  have hall : ∀ n < 256, (digitValue 16 (UInt8.ofNat n)).isSome → Plain (UInt8.ofNat n) := by
    decide +kernel
  have h := hall d.toNat d.toNat_lt
  rw [UInt8.ofNat_toNat] at h
  exact h hd

theorem plain_escape (he : e ∈ ascii "\"\\/bfnrt") : Plain e :=
  (by decide : ∀ e ∈ ascii "\"\\/bfnrt", Plain e) e he

theorem respace_cons (c : UInt8) (s : Bytes) :
    respace (c :: s) =
      (if c = ch ' ' then [] else if c = ch ':' then [c, ch ' '] else [c]) ++ respace s := rfl

theorem respace_plain (hc : Plain c) (s : Bytes) : respace (c :: s) = c :: respace s := by
  have hspace : c ≠ ch ' ' := fun h => hc (h ▸ by decide)
  have hcolon : c ≠ ch ':' := fun h => hc (h ▸ by decide)
  rw [respace_cons, if_neg hspace, if_neg hcolon]
  rfl

theorem body_byte (hc : 32 ≤ c) :
    c ∈ ascii "\x7b\x7d[]," ∨ c = ch ' ' ∨ c = ch ':' ∨ Plain c := by
  have hall : ∀ n < 256, (32 : UInt8) ≤ UInt8.ofNat n →
      UInt8.ofNat n ∈ ascii "\x7b\x7d[]," ∨ UInt8.ofNat n = ch ' ' ∨ UInt8.ofNat n = ch ':' ∨
        Plain (UInt8.ofNat n) := by
    decide +kernel
  have h := hall c.toNat c.toNat_lt
  rw [UInt8.ofNat_toNat] at h
  exact h hc

theorem printed_body {s : Bytes} (hs : ∀ c ∈ s, 32 ≤ c)
    (hplain : ∀ c ∈ s, c ∉ ascii "\x7b\x7d[],") (indent : Int) :
    printed indent s = respace s ∧ indentAt indent s = indent := by
  induction s with
  | nil => exact ⟨rfl, rfl⟩
  | cons c s ih =>
      obtain ⟨hge, hs⟩ := List.forall_mem_cons.mp hs
      obtain ⟨hc, hplain⟩ := List.forall_mem_cons.mp hplain
      obtain ⟨hrest, hlevel⟩ := ih hs hplain
      have hbyte : printedByte indent c ++ respace s = respace (c :: s) ∧
          indentAfter indent c = indent := by
        rcases (body_byte hge).resolve_left hc with rfl | rfl | hcplain
        · exact ⟨rfl, rfl⟩
        · exact ⟨rfl, rfl⟩
        · rw [(printedByte_plain hcplain indent).1, respace_plain hcplain]
          exact ⟨rfl, (printedByte_plain hcplain indent).2⟩
      constructor
      · rw [printed, hbyte.2, hrest, hbyte.1]
      · rw [indentAt, List.foldl_cons, hbyte.2]
        exact hlevel

theorem printed_cons_plain (hc : Plain c) (indent : Int) (s : Bytes) :
    printed indent (c :: s) = c :: printed indent s := by
  rw [printed, (printedByte_plain hc indent).1, (printedByte_plain hc indent).2]
  rfl

theorem IsBody.not_lineFeed (hb : IsBody body') : ch '\n' :: x ≠ body' ++ ch '"' :: r' := by
  intro heq
  cases hb with
  | nil => exact absurd (List.cons.inj heq).1 (by decide)
  | raw hc _ _ _ => exact absurd ((List.cons.inj heq).1 ▸ hc) (by decide)
  | escape => exact absurd (List.cons.inj heq).1 (by decide)
  | unicode => exact absurd (List.cons.inj heq).1 (by decide)

theorem IsBody.not_bracket (hb : IsBody body') (indent : Int)
    (hc : c ∈ ascii "\x7b\x7d[],") : printedByte indent c ++ x ≠ body' ++ ch '"' :: r' := by
  intro heq
  have hcases : ∀ c ∈ ascii "\x7b\x7d[],", c = ch '\x7b' ∨ c = ch '\x7d' ∨ c = ch '[' ∨
    c = ch ']' ∨ c = ch ',' := by decide
  rcases hcases c hc with rfl | rfl | rfl | rfl | rfl
  · obtain ⟨s, -, hs, -, hfeed⟩ := IsBody.of_raw hb (by decide) (by decide) heq
    exact IsBody.not_lineFeed hs hfeed
  · exact IsBody.not_lineFeed hb heq
  · obtain ⟨s, -, hs, -, hfeed⟩ := IsBody.of_raw hb (by decide) (by decide) heq
    exact IsBody.not_lineFeed hs hfeed
  · exact IsBody.not_lineFeed hb heq
  · obtain ⟨s, -, hs, -, hfeed⟩ := IsBody.of_raw hb (by decide) (by decide) heq
    exact IsBody.not_lineFeed hs hfeed

theorem not_bracket_of_plain (hc : Plain c) : c ∉ ascii "\x7b\x7d[]," := fun hmem =>
  hc ((by decide : ∀ c ∈ ascii "\x7b\x7d[],", c ∈ ascii "\x7b\x7d[],: \t\n\r") c hmem)

theorem body_of_printed (hb : IsBody body) (hb' : IsBody body') (indent : Int)
    (heq : printed indent body ++ ch '"' :: r = body' ++ ch '"' :: r') :
    (∀ c ∈ body, c ∉ ascii "\x7b\x7d[],") ∧ body' = respace body ∧ r = r' := by
  induction hb generalizing body' with
  | nil =>
      cases hb' with
      | nil => exact ⟨by simp, rfl, (List.cons.inj heq).2⟩
      | raw _ hquote _ _ => exact absurd (List.cons.inj heq).1.symm hquote
      | escape => exact absurd (List.cons.inj heq).1 (by decide)
      | unicode => exact absurd (List.cons.inj heq).1 (by decide)
  | @raw c s hc hquote hslash hs ih =>
      rw [printed, List.append_assoc] at heq
      rcases body_byte hc with hbracket | rfl | rfl | hplain
      · exact absurd heq (IsBody.not_bracket hb' indent hbracket)
      · obtain ⟨hkept, hbody, hrest⟩ := ih hb' heq
        exact ⟨List.forall_mem_cons.mpr ⟨by decide, hkept⟩, hbody, hrest⟩
      · obtain ⟨s', rfl, hs', -, heq'⟩ := IsBody.of_raw hb' (by decide) (by decide) heq
        obtain ⟨s'', rfl, hs'', -, heq''⟩ := IsBody.of_raw hs' (by decide) (by decide) heq'
        obtain ⟨hkept, hbody, hrest⟩ := ih hs'' heq''
        refine ⟨List.forall_mem_cons.mpr ⟨by decide, hkept⟩, ?_, hrest⟩
        rw [hbody]
        rfl
      · rw [(printedByte_plain hplain indent).1, (printedByte_plain hplain indent).2] at heq
        obtain ⟨s', rfl, hs', -, heq'⟩ := IsBody.of_raw hb' hquote hslash heq
        obtain ⟨hkept, hbody, hrest⟩ := ih hs' heq'
        refine ⟨List.forall_mem_cons.mpr ⟨not_bracket_of_plain hplain, hkept⟩, ?_, hrest⟩
        rw [hbody, respace_plain hplain]
  | @escape e s he hs ih =>
      rw [printed_cons_plain (by decide), printed_cons_plain (plain_escape he)] at heq
      obtain ⟨s', rfl, hs', heq'⟩ := IsBody.of_escape hb' he heq
      obtain ⟨hkept, hbody, hrest⟩ := ih hs' heq'
      have hescape := not_bracket_of_plain (plain_escape he)
      refine ⟨List.forall_mem_cons.mpr ⟨by decide, List.forall_mem_cons.mpr ⟨hescape, hkept⟩⟩, ?_,
        hrest⟩
      rw [hbody, respace_plain (by decide), respace_plain (plain_escape he)]
  | @unicode d₁ d₂ d₃ d₄ s hd hs ih =>
      simp only [List.forall_mem_cons] at hd
      have h₁ := plain_hex hd.1
      have h₂ := plain_hex hd.2.1
      have h₃ := plain_hex hd.2.2.1
      have h₄ := plain_hex hd.2.2.2.1
      have hslash : Plain (ch '\\') := by decide
      have hu : Plain (ch 'u') := by decide
      rw [printed_cons_plain hslash, printed_cons_plain hu, printed_cons_plain h₁,
        printed_cons_plain h₂, printed_cons_plain h₃, printed_cons_plain h₄] at heq
      obtain ⟨s', rfl, hs', heq'⟩ := IsBody.of_unicode hb' heq
      obtain ⟨hkept, hbody, hrest⟩ := ih hs' heq'
      refine ⟨?_, ?_, hrest⟩
      · simp only [List.forall_mem_cons]
        exact ⟨by decide, by decide, not_bracket_of_plain h₁, not_bracket_of_plain h₂,
          not_bracket_of_plain h₃, not_bracket_of_plain h₄, hkept⟩
      · rw [hbody, respace_plain hslash, respace_plain hu, respace_plain h₁, respace_plain h₂,
          respace_plain h₃, respace_plain h₄]

theorem IsBody.respace (hb : IsBody body) : IsBody (respace body) := by
  induction hb with
  | nil => exact .nil
  | @raw c s hc hquote hslash _ ih =>
      rw [respace_cons]
      split
      · exact ih
      split
      · exact .raw hc hquote hslash (.raw (by decide) (by decide) (by decide) ih)
      · exact .raw hc hquote hslash ih
  | @escape e s he _ ih =>
      rw [respace_plain (by decide), respace_plain (plain_escape he)]
      exact .escape he ih
  | @unicode d₁ d₂ d₃ d₄ s hd _ ih =>
      have hhex := hd
      simp only [List.forall_mem_cons] at hhex
      rw [respace_plain (by decide), respace_plain (by decide), respace_plain (plain_hex hhex.1),
        respace_plain (plain_hex hhex.2.1), respace_plain (plain_hex hhex.2.2.1),
        respace_plain (plain_hex hhex.2.2.2.1)]
      exact .unicode hd ih

end Strings

/-! ## Printed texts that are read as the same value -/

theorem printed_quoted (indent : Int) (body s : Bytes) :
    printed indent (ch '"' :: (body ++ ch '"' :: s)) =
      ch '"' :: (printed indent body ++ ch '"' :: printed (indentAt indent body) s) := by
  rw [printed_cons_plain (by decide), printed_append, printed_cons_plain (by decide)]

theorem printed_key {key : MemberKey} (hkey : key.Valid) (indent : Int) (s : Bytes) :
    printed indent (key.text ++ s) =
      ch '"' :: (printed indent key.body ++ ch '"' :: ch ':' :: ch ' ' ::
        printed (indentAt indent key.body) s) := by
  have hcolon : ∀ t, printed (indentAt indent key.body) (ch ':' :: t) =
      ch ':' :: ch ' ' :: printed (indentAt indent key.body) t := fun _ => rfl
  rw [MemberKey.text, List.append_assoc, printed_append, (printed_gap hkey.before indent).1,
    (printed_gap hkey.before indent).2, List.nil_append, List.cons_append, List.append_assoc,
    List.cons_append, printed_quoted, List.append_assoc, printed_append,
    (printed_gap hkey.beforeColon _).1, (printed_gap hkey.beforeColon _).2, List.nil_append,
    List.cons_append, hcolon, printed_append, (printed_gap hkey.afterColon _).1,
    (printed_gap hkey.afterColon _).2, List.nil_append]

theorem key_of_printed {key key' : MemberKey} (hkey : key.Valid) (hkey' : key'.Valid)
    (hsame : decode key'.body = decode key.body) {indent : Int} {g r r' : Bytes} (hg : IsGap g)
    (hr : StartsToken r) (hr' : StartsToken r')
    (heq : g ++ (ch '"' :: (printed indent key.body ++ ch '"' :: ch ':' :: ch ' ' :: r)) =
      key'.text ++ r') : BodyKept key.body ∧ r = r' := by
  rw [MemberKey.text, List.append_assoc, List.cons_append, List.append_assoc, List.cons_append,
    List.append_assoc, List.cons_append] at heq
  have hquote := (hg.unique hkey'.before ⟨_, _, rfl, by decide⟩ ⟨_, _, rfl, by decide⟩ heq).2
  obtain ⟨hplain, hbody, hrest⟩ := body_of_printed hkey.body hkey'.body indent
    (List.cons.inj hquote).2
  have hcolon := (IsGap.nil.unique hkey'.beforeColon ⟨_, _, rfl, by decide⟩
    ⟨_, _, rfl, by decide⟩ hrest).2
  have hgap : IsGap [ch ' '] := by decide
  have hvalue := (hgap.unique hkey'.afterColon hr hr' (List.cons.inj hcolon).2).2
  exact ⟨⟨hplain, by rw [← hbody, hsame]⟩, hvalue⟩

theorem close_of_printed {c : UInt8} {g g' r r' : Bytes} (hg : IsGap g) (hg' : IsGap g')
    (hc : c ∉ ascii " \t\n\r") (heq : g ++ c :: r = g' ++ c :: r') : r = r' :=
  (List.cons.inj (hg.unique hg' ⟨c, r, rfl, hc⟩ ⟨c, r', rfl, hc⟩ heq).2).2

def Brackets (o c : UInt8) : Prop := (o = ch '[' ∧ c = ch ']') ∨ (o = ch '\x7b' ∧ c = ch '\x7d')

theorem Brackets.close {o c : UInt8} (h : Brackets o c) : c ∉ ascii " \t\n\r" := by
  rcases h with ⟨-, rfl⟩ | ⟨-, rfl⟩ <;> decide

theorem printed_container {o c : UInt8} (h : Brackets o c) (indent : Int) (s : Bytes) :
    printed indent (o :: (s ++ [c])) =
      o :: (newline (indent + 1) ++
        (printed (indent + 1) s ++ (newline (indentAt (indent + 1) s - 1) ++ [c]))) := by
  have hopen : ∀ t, printed indent (o :: t) =
      o :: (newline (indent + 1) ++ printed (indent + 1) t) := by
    rcases h with ⟨rfl, -⟩ | ⟨rfl, -⟩ <;> exact fun _ => rfl
  have hclose : ∀ level, printed level [c] = newline (level - 1) ++ [c] := by
    rcases h with ⟨-, rfl⟩ | ⟨-, rfl⟩ <;> exact fun _ => List.append_nil _
  rw [hopen, printed_append, hclose]

theorem printed_comma (indent : Int) (s : Bytes) :
    printed indent (ch ',' :: s) = ch ',' :: (newline indent ++ printed indent s) := rfl

theorem empty_of_printed {o c : UInt8} (h : Brackets o c) {ws ws' : Bytes} (hws : IsGap ws)
    (hws' : IsGap ws') {indent : Int} {r r' : Bytes}
    (heq : printed indent (o :: (ws ++ [c])) ++ r = (o :: (ws' ++ [c])) ++ r') : r = r' := by
  rw [printed_container h, (printed_gap hws _).1, (printed_gap hws _).2] at heq
  simp only [List.cons_append, List.append_assoc, List.nil_append, List.cons.injEq,
    true_and] at heq
  rw [← List.append_assoc] at heq
  exact close_of_printed ((isGap_newline _).append (isGap_newline _)) hws' h.close heq

theorem container_of_printed {o c : UInt8} (h : Brackets o c) {s s' : Bytes} {P : Prop}
    (hinside : ∀ indent g r r', IsGap g → g ++ (printed indent s ++ r) = s' ++ r' →
      P ∧ ∃ g', IsGap g' ∧ r = g' ++ r') {indent : Int} {r r' : Bytes}
    (heq : printed indent (o :: (s ++ [c])) ++ r = (o :: (s' ++ [c])) ++ r') : P ∧ r = r' := by
  rw [printed_container h] at heq
  simp only [List.cons_append, List.append_assoc, List.nil_append, List.cons.injEq,
    true_and] at heq
  obtain ⟨hkept, g', hg', hend⟩ := hinside _ _ _ _ (isGap_newline _) heq
  exact ⟨hkept, close_of_printed (isGap_newline _) hg' h.close hend⟩

mutual

/-- **A value that is printed and read again as the same value** has strings
that come through. -/
theorem kept_of_printed (v v' : Json) (hv : v.Valid) (hv' : v'.Valid) (htree : v'.tree = v.tree)
    (indent : Int) (r r' : Bytes) (heq : printed indent v.text ++ r = v'.text ++ r') :
    StringsKept v ∧ r = r' := by
  match v with
  | .string body =>
      cases v' <;> try exact Tree.noConfusion htree
      next body' =>
        have hsame : decode body' = decode body := Tree.string.inj htree
        rw [Json.text, printed_quoted, Json.text] at heq
        simp only [List.cons_append, List.append_assoc, List.cons.injEq, true_and,
          List.nil_append] at heq
        obtain ⟨hplain, hbody, hrest⟩ := body_of_printed hv hv' indent heq
        exact ⟨⟨hplain, by rw [← hbody, hsame]⟩, hrest⟩
  | .number text =>
      cases v' <;> try exact Tree.noConfusion htree
      next text' =>
        obtain rfl : text' = text := Tree.number.inj htree
        rw [Json.text, (printed_number hv indent).1] at heq
        exact ⟨trivial, List.append_cancel_left heq⟩
  | .word w =>
      cases v' <;> try exact Tree.noConfusion htree
      next w' =>
        obtain rfl : w' = w := Tree.word.inj htree
        rw [Json.text, (printed_word w' indent).1] at heq
        exact ⟨trivial, List.append_cancel_left heq⟩
  | .emptyArray ws =>
      cases v' <;> try exact Tree.noConfusion htree
      next ws' => exact ⟨trivial, empty_of_printed (.inl ⟨rfl, rfl⟩) hv hv' heq⟩
      next items' => exact absurd (Tree.array.inj htree) items'.trees_ne_nil
  | .array items =>
      cases v' <;> try exact Tree.noConfusion htree
      next ws' => exact absurd (Tree.array.inj htree).symm items.trees_ne_nil
      next items' =>
        exact container_of_printed (.inl ⟨rfl, rfl⟩) (fun _ _ _ _ hg =>
          items_of_printed items items' hv hv' (Tree.array.inj htree) _ _ _ _ hg) heq
  | .emptyObject ws =>
      cases v' <;> try exact Tree.noConfusion htree
      next ws' => exact ⟨trivial, empty_of_printed (.inr ⟨rfl, rfl⟩) hv hv' heq⟩
      next members' => exact absurd (Tree.object.inj htree) members'.fields_ne_nil
  | .object members =>
      cases v' <;> try exact Tree.noConfusion htree
      next ws' => exact absurd (Tree.object.inj htree).symm members.fields_ne_nil
      next members' =>
        exact container_of_printed (.inr ⟨rfl, rfl⟩) (fun _ _ _ _ hg =>
          members_of_printed members members' hv hv' (Tree.object.inj htree) _ _ _ _ hg) heq

theorem items_of_printed (items items' : Items) (hv : items.Valid) (hv' : items'.Valid)
    (htrees : items'.trees = items.trees) (indent : Int) (g r r' : Bytes) (hg : IsGap g)
    (heq : g ++ (printed indent items.text ++ r) = items'.text ++ r') :
    ItemsKept items ∧ ∃ g', IsGap g' ∧ r = g' ++ r' := by
  match items, items' with
  | .last before item after, .last before' item' after' =>
      obtain ⟨hbefore, hitem, hafter⟩ := hv
      obtain ⟨hbefore', hitem', hafter'⟩ := hv'
      have htree := (Trees.cons.inj htrees).1
      rw [Items.text, printed_append, (printed_gap hbefore _).1, (printed_gap hbefore _).2,
        List.nil_append, printed_append, (printed_gap hafter _).1, List.append_nil, Items.text,
        List.append_assoc, List.append_assoc] at heq
      have hvalue := (hg.unique hbefore' ((startsToken_printed hitem _).append _)
        ((Json.startsToken hitem').append _) heq).2
      obtain ⟨hkept, hrest⟩ := kept_of_printed item item' hitem hitem' htree _ _ _ hvalue
      exact ⟨hkept, after', hafter', hrest⟩
  | .last _ _ _, .more _ _ _ rest' =>
      exact absurd (Trees.cons.inj htrees).2 rest'.trees_ne_nil
  | .more _ _ _ rest, .last _ _ _ =>
      exact absurd (Trees.cons.inj htrees).2.symm rest.trees_ne_nil
  | .more before item after rest, .more before' item' after' rest' =>
      obtain ⟨hbefore, hitem, hafter, hrest⟩ := hv
      obtain ⟨hbefore', hitem', hafter', hrest'⟩ := hv'
      obtain ⟨htree, htrees⟩ := Trees.cons.inj htrees
      rw [Items.text, printed_append, (printed_gap hbefore _).1, (printed_gap hbefore _).2,
        List.nil_append, printed_append, printed_append, (printed_gap hafter _).1,
        (printed_gap hafter _).2, List.nil_append, printed_comma, Items.text, List.append_assoc,
        List.append_assoc, List.append_assoc, List.append_assoc, List.cons_append,
        List.cons_append, List.append_assoc] at heq
      have hvalue := (hg.unique hbefore' ((startsToken_printed hitem _).append _)
        ((Json.startsToken hitem').append _) heq).2
      obtain ⟨hkept, hcomma⟩ := kept_of_printed item item' hitem hitem' htree _ _ _ hvalue
      have hnext := close_of_printed IsGap.nil hafter' (by decide) hcomma
      obtain ⟨hkept', hend⟩ := items_of_printed rest rest' hrest hrest' htrees _ _ _ _
        (isGap_newline _) hnext
      exact ⟨⟨hkept, hkept'⟩, hend⟩

theorem members_of_printed (members members' : Members) (hv : members.Valid)
    (hv' : members'.Valid) (hfields : members'.fields = members.fields) (indent : Int)
    (g r r' : Bytes) (hg : IsGap g)
    (heq : g ++ (printed indent members.text ++ r) = members'.text ++ r') :
    MembersKept members ∧ ∃ g', IsGap g' ∧ r = g' ++ r' := by
  match members, members' with
  | .last key value after, .last key' value' after' =>
      obtain ⟨hkey, hvalue, hafter⟩ := hv
      obtain ⟨hkey', hvalue', hafter'⟩ := hv'
      obtain ⟨hsame, htree, -⟩ := Fields.cons.inj hfields
      rw [Members.text, printed_key hkey, printed_append, (printed_gap hafter _).1,
        List.append_nil, Members.text, List.append_assoc, List.append_assoc] at heq
      simp only [List.cons_append, List.append_assoc] at heq
      obtain ⟨hkept, hrest⟩ := key_of_printed hkey hkey' hsame hg
        ((startsToken_printed hvalue _).append _) ((Json.startsToken hvalue').append _) heq
      obtain ⟨hkept', hrest⟩ := kept_of_printed value value' hvalue hvalue' htree _ _ _ hrest
      exact ⟨⟨hkept, hkept'⟩, after', hafter', hrest⟩
  | .last _ _ _, .more _ _ _ rest' =>
      exact absurd (Fields.cons.inj hfields).2.2 rest'.fields_ne_nil
  | .more _ _ _ rest, .last _ _ _ =>
      exact absurd (Fields.cons.inj hfields).2.2.symm rest.fields_ne_nil
  | .more key value after rest, .more key' value' after' rest' =>
      obtain ⟨hkey, hvalue, hafter, hrest⟩ := hv
      obtain ⟨hkey', hvalue', hafter', hrest'⟩ := hv'
      obtain ⟨hsame, htree, hfields⟩ := Fields.cons.inj hfields
      rw [Members.text, printed_key hkey, printed_append, printed_append, (printed_gap hafter _).1,
        (printed_gap hafter _).2, List.nil_append, printed_comma, Members.text, List.append_assoc,
        List.append_assoc, List.append_assoc] at heq
      simp only [List.cons_append, List.append_assoc] at heq
      obtain ⟨hkept, hnext⟩ := key_of_printed hkey hkey' hsame hg
        ((startsToken_printed hvalue _).append _) ((Json.startsToken hvalue').append _) heq
      obtain ⟨hkept', hcomma⟩ := kept_of_printed value value' hvalue hvalue' htree _ _ _ hnext
      obtain ⟨hkept'', hend⟩ := members_of_printed rest rest' hrest hrest' hfields _ _ _ _
        (isGap_newline _) (close_of_printed IsGap.nil hafter' (by decide) hcomma)
      exact ⟨⟨hkept, hkept', hkept''⟩, hend⟩

end

end BlessStar.Convert.Proofs.JsonPrinting
