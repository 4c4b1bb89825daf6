import BlessStar.Lib.ByteArea
import BlessStar.Lib.JsonText

/-!
# Texts printed one behind another

A buffer of a fixed size that formatted writes fill from the front: each write
gets the address and the size that are left by the lengths of the texts before
it, as far as the numbers go, and cuts its text to this size.
-/

namespace BlessStar.Lib.FixedBuffer

open Lib.ByteArea Lib.ByteString Lib.JsonText

structure PrintBuffer where
  buf : Area := fun _ => 0
  len : Nat := 0
  overrun : Bool := false

def maxPrinted : Nat := 2147483647

/-- `size - len`, of unsigned numbers with 64 bits. -/
def sizeLeft (size len : Nat) : Nat := (size + 2 ^ 64 - len) % 2 ^ 64

namespace PrintBuffer

/-- What `snprintf(buf + len, size - len, ...)` stores of a text, with a NUL. -/
def shown (size : Nat) (b : PrintBuffer) (text : Bytes) : Bytes :=
  let left := sizeLeft size b.len
  if left = 0 then [] else text.take (left - 1) ++ [0]

/-- The write, and `len += written`; a text too long to be counted gives `-1`. -/
def print (size : Nat) (b : PrintBuffer) (text : Bytes) : PrintBuffer where
  buf := write b.buf b.len (b.shown size text)
  len := (b.len + if text.length ≤ maxPrinted then text.length else 2 ^ 64 - 1) % 2 ^ 64
  overrun := b.overrun || decide (size < b.len + (b.shown size text).length)

def printAll (size : Nat) (b : PrintBuffer) (texts : List Bytes) : PrintBuffer :=
  texts.foldl (print size) b

def text (size : Nat) (b : PrintBuffer) : Bytes := cstr (read b.buf 0 size)

end PrintBuffer

/-- The text `t` was printed so far, and stands in the buffer as far as it fits. -/
structure Stands (size : Nat) (b : PrintBuffer) (t : Bytes) : Prop where
  inside : b.overrun = false
  len : b.len = t.length
  holds : Holds b.buf 0 (t.take (size - 1))
  ended : size ≤ t.length → b.buf (size - 1) = 0

def Off (size : Nat) (b : PrintBuffer) : Prop :=
  b.overrun = true ∨ (size < b.len ∧ b.len < 2 ^ 64)

variable {size : Nat} {b : PrintBuffer} {t text : Bytes}

theorem maxPrinted_lt : maxPrinted < 2 ^ 31 := by decide

theorem stands_nil (hsize : 0 < size) : Stands size {} [] where
  inside := rfl
  len := rfl
  holds := by
    rw [List.take_nil]
    exact holds_nil
  ended := fun h => absurd hsize (Nat.not_lt.mpr h)

theorem Stands.shown_eq (h : Stands size b t) (hsize : size ≤ maxPrinted) (hle : t.length ≤ size)
    (text : Bytes) :
    b.shown size text =
      if t.length = size then [] else text.take (size - 1 - t.length) ++ [0] := by
  have hmax := maxPrinted_lt
  have hleft : sizeLeft size b.len = size - t.length := by
    rw [sizeLeft, h.len]
    omega
  have hrest : size - t.length - 1 = size - 1 - t.length := by omega
  rw [PrintBuffer.shown, hleft, hrest]
  split_ifs <;> first | rfl | omega

theorem Stands.print_inside (h : Stands size b t) (hsize : size ≤ maxPrinted)
    (hle : t.length ≤ size) (text : Bytes) : (b.print size text).overrun = false := by
  rw [PrintBuffer.print, h.shown_eq hsize hle, h.inside, h.len, Bool.false_or,
    decide_eq_false_iff_not]
  split
  · simpa using hle
  · simp only [List.length_append, List.length_take, List.length_singleton]
    omega

theorem Stands.print_holds (h : Stands size b t) (hsize : size ≤ maxPrinted)
    (hle : t.length ≤ size) (text : Bytes) :
    Holds (b.print size text).buf 0 ((t ++ text).take (size - 1)) ∧
      (b.print size text).buf (min (t ++ text).length (size - 1)) = 0 := by
  rw [PrintBuffer.print, h.shown_eq hsize hle, h.len]
  dsimp only
  by_cases hfull : t.length = size
  · rw [if_pos hfull, write_nil, List.take_append_of_le_length (by omega),
      Nat.min_eq_right (by rw [List.length_append]; omega)]
    exact ⟨h.holds, h.ended hfull.ge⟩
  · have htake : t.take (size - 1) = t := List.take_of_length_le (by omega)
    have hstands := h.holds
    rw [htake] at hstands
    rw [if_neg hfull, List.take_append, htake]
    have hshown := holds_append_iff.mp
      (@holds_write b.buf t.length (text.take (size - 1 - t.length) ++ [0]))
    constructor
    · rw [holds_append_iff, Nat.zero_add]
      exact ⟨hstands.write (Or.inl (by omega)), hshown.1⟩
    · have hend : min (t ++ text).length (size - 1) =
          t.length + (text.take (size - 1 - t.length)).length + 0 := by
        simp only [List.length_append, List.length_take]
        omega
      rw [hend]
      exact holds_iff.mp hshown.2 0 (by decide)

theorem Stands.print (h : Stands size b t) (hsize : size ≤ maxPrinted) (hle : t.length ≤ size)
    (htext : text.length ≤ maxPrinted) : Stands size (b.print size text) (t ++ text) := by
  have hmax := maxPrinted_lt
  obtain ⟨hholds, hzero⟩ := h.print_holds hsize hle text
  refine ⟨h.print_inside hsize hle text, ?_, hholds, fun hlong => ?_⟩
  · rw [PrintBuffer.print, if_pos htext, h.len, List.length_append]
    exact Nat.mod_eq_of_lt (by omega)
  · rwa [Nat.min_eq_right (by omega)] at hzero

theorem Stands.uncounted (h : Stands size b t) (hsize : size ≤ maxPrinted) (hlt : t.length < size)
    (text : Bytes) : Stands size { b.print size text with len := b.len } t where
  inside := h.print_inside hsize hlt.le text
  len := h.len
  holds := by
    have hholds := (h.print_holds hsize hlt.le text).1
    rw [List.take_append] at hholds
    exact (holds_append_iff.mp hholds).1
  ended := fun hle => absurd hlt (Nat.not_lt.mpr hle)

theorem Stands.print_long (h : Stands size b t) (hsize : size ≤ maxPrinted)
    (hle : t.length ≤ size) (htext : maxPrinted < text.length) (hne : t ≠ []) :
    Stands size (b.print size text) t.dropLast := by
  have hmax := maxPrinted_lt
  have hpos := List.length_pos_iff.mpr hne
  have hshort : t.dropLast.take (size - 1) = t.dropLast :=
    List.take_of_length_le (by rw [List.length_dropLast]; omega)
  refine ⟨h.print_inside hsize hle text, ?_, ?_, fun hlong => ?_⟩
  · rw [PrintBuffer.print, if_neg (by omega), h.len, List.length_dropLast]
    dsimp only
    omega
  · have hprefix : t.dropLast <+: (t ++ text).take (size - 1) := by
      rw [← hshort, List.dropLast_eq_take, List.take_take]
      exact (List.take_prefix_take_left (by omega)).trans
        ((List.prefix_append t text).take (size - 1))
    obtain ⟨rest, hrest⟩ := hprefix
    have hholds := (h.print_holds hsize hle text).1
    rw [← hrest] at hholds
    rw [hshort]
    exact (holds_append_iff.mp hholds).1
  · rw [List.length_dropLast] at hlong
    omega

theorem off_of_lt (h : Stands size b t) (hlt : size < t.length)
    (htext : t.length ≤ size + maxPrinted) (hsize : size ≤ maxPrinted) : Off size b := by
  have hmax := maxPrinted_lt
  refine Or.inr ⟨?_, ?_⟩ <;> rw [h.len] <;> omega

theorem print_off (hsize : size ≤ maxPrinted) (h : Off size b) (text : Bytes) :
    (b.print size text).overrun = true := by
  have hmax := maxPrinted_lt
  rw [PrintBuffer.print]
  rcases h with hover | ⟨hlt, hlen⟩
  · rw [hover, Bool.true_or]
  · have hleft : sizeLeft size b.len = size + 2 ^ 64 - b.len := by
      rw [sizeLeft]
      omega
    rw [PrintBuffer.shown, hleft, if_neg (by omega), Bool.or_eq_true, decide_eq_true_eq,
      List.length_append]
    omega

theorem printAll_off (hsize : size ≤ maxPrinted) (texts : List Bytes) (h : Off size b) :
    Off size (b.printAll size texts) := by
  induction texts generalizing b with
  | nil => exact h
  | cons text texts ih => exact ih (Or.inl (print_off hsize h text))

def counted (texts : List Bytes) : List Bytes := texts.filter fun x => x.length ≤ maxPrinted

theorem Stands.printAll (h : Stands size b t) (hsize : size ≤ maxPrinted)
    (ht : t.length ≤ size + maxPrinted) (texts : List Bytes) :
    Off size (b.printAll size texts) ∨
      ∃ t', Stands size (b.printAll size texts) t' ∧ t'.length ≤ size + maxPrinted ∧
        t'.Sublist (t ++ (counted texts).flatten) ∧
        ((∀ x ∈ texts, x.length ≤ maxPrinted) → t' = t ++ texts.flatten) := by
  have hmax := maxPrinted_lt
  induction texts generalizing b t with
  | nil => exact Or.inr ⟨t, h, ht, by simp [counted], fun _ => by simp⟩
  | cons text texts ih =>
      rcases Nat.lt_or_ge size t.length with hlt | hle
      · exact Or.inl (printAll_off hsize texts (Or.inl
          (print_off hsize (off_of_lt h hlt ht hsize) text)))
      · rcases Nat.lt_or_ge maxPrinted text.length with hlong | hshort
        · have hcounted : counted (text :: texts) = counted texts := by
            rw [counted, List.filter_cons_of_neg (by simpa using hlong), counted]
          rcases List.eq_nil_or_concat t with rfl | ⟨front, c, rfl⟩
          · -- nothing stands before the text, and the length turns over
            refine Or.inl (printAll_off hsize texts (Or.inr ?_))
            rw [PrintBuffer.print, if_neg (by omega), h.len]
            dsimp only
            rw [List.length_nil]
            omega
          · have hnext := h.print_long hsize hle hlong (by simp)
            rw [List.concat_eq_append, List.dropLast_concat] at hnext
            rw [List.concat_eq_append, List.length_append] at ht
            rcases ih hnext (by omega) with hoff | ⟨t', hstands, hlen, hsub, hall⟩
            · exact Or.inl hoff
            · refine Or.inr ⟨t', hstands, hlen, hsub.trans ?_, fun hcount => ?_⟩
              · rw [hcounted, List.concat_eq_append]
                exact (List.sublist_append_left front [c]).append_right _
              · exact absurd (hcount text List.mem_cons_self) (by omega)
        · have hcounted : counted (text :: texts) = text :: counted texts := by
            rw [counted, List.filter_cons_of_pos (by simpa using hshort), counted]
          rcases ih (h.print hsize hle hshort) (by rw [List.length_append]; omega) with
            hoff | ⟨t', hstands, hlen, hsub, hall⟩
          · exact Or.inl hoff
          · refine Or.inr ⟨t', hstands, hlen, ?_, fun hcount => ?_⟩
            · rwa [hcounted, List.flatten_cons, ← List.append_assoc]
            · rw [hall fun x hx => hcount x (List.mem_cons_of_mem _ hx), List.flatten_cons,
                List.append_assoc]

theorem cstr_read {m : Area} (h : Holds m 0 t) (hzero : m t.length = 0) (hlt : t.length < size) :
    cstr (read m 0 size) = cstr t := by
  have hcut : size = t.length + (1 + (size - (t.length + 1))) := by omega
  rw [hcut, read_add, read_add, h.read_eq rfl, Nat.zero_add]
  have hnul : read m t.length 1 = [0] := by
    simp [ByteArea.read, hzero]
  have hstop : ∀ rest : Bytes, (0 :: rest).takeWhile (· ≠ 0) = [] := fun _ => rfl
  rw [hnul, List.singleton_append, cstr, List.takeWhile_append, hstop, List.append_nil, cstr]
  split
  · next hall => exact (List.takeWhile_prefix _).eq_of_length hall |>.symm
  · rfl

/-- **Any texts** behind others, the last of which can be counted: if no write left the buffer,
it holds the beginning of what could be counted. -/
theorem Stands.text_printAll (h : Stands size b t) (hpos : 0 < size) (hsize : size ≤ maxPrinted)
    (ht : t.length ≤ size + maxPrinted) (front : List Bytes) {last : Bytes}
    (hlast : last.length ≤ maxPrinted)
    (hinside : (b.printAll size (front ++ [last])).overrun = false) :
    ∃ t', (b.printAll size (front ++ [last])).text size = cstr (t'.take (size - 1)) ∧
      t'.Sublist (t ++ (counted (front ++ [last])).flatten) ∧
      ((∀ x ∈ front, x.length ≤ maxPrinted) → t' = t ++ (front ++ [last]).flatten) := by
  rw [PrintBuffer.printAll, List.foldl_concat] at hinside ⊢
  rcases h.printAll hsize ht front with hoff | ⟨t', hstands, hlen, hsub, hall⟩
  · exact absurd hinside (by rw [← PrintBuffer.printAll, print_off hsize hoff]; decide)
  · have hle : t'.length ≤ size := by
      by_contra hlt
      have hoff := off_of_lt hstands (by omega) hlen hsize
      exact absurd hinside (by rw [← PrintBuffer.printAll, print_off hsize hoff]; decide)
    obtain ⟨hholds, hzero⟩ := hstands.print_holds hsize hle last
    refine ⟨t' ++ last, ?_, ?_, fun hcount => ?_⟩
    · have htaken : ((t' ++ last).take (size - 1)).length =
          min (t' ++ last).length (size - 1) := by
        rw [List.length_take, Nat.min_comm]
      exact cstr_read hholds (by rw [htaken]; exact hzero) (by omega)
    · have hcounted : counted (front ++ [last]) = counted front ++ [last] := by
        rw [counted, List.filter_append, counted, List.filter_cons_of_pos (by simpa using hlast),
          List.filter_nil]
      rw [hcounted, List.flatten_append, List.flatten_singleton, ← List.append_assoc]
      exact hsub.append_right last
    · rw [hall hcount, List.flatten_append, List.flatten_singleton, List.append_assoc]

theorem text_printAll (hpos : 0 < size) (hsize : size ≤ maxPrinted) (front : List Bytes)
    {last : Bytes} (hlast : last.length ≤ maxPrinted)
    (hinside : (PrintBuffer.printAll size {} (front ++ [last])).overrun = false) :
    ∃ t, (PrintBuffer.printAll size {} (front ++ [last])).text size = cstr (t.take (size - 1)) ∧
      t.Sublist (counted (front ++ [last])).flatten ∧
      ((∀ x ∈ front, x.length ≤ maxPrinted) → t = (front ++ [last]).flatten) :=
  (stands_nil hpos).text_printAll hpos hsize (Nat.zero_le _) front hlast hinside

theorem Stands.printAll_fits (h : Stands size b t) (hsize : size ≤ maxPrinted)
    {texts : List Bytes} (hfits : (t ++ texts.flatten).length ≤ size) :
    Stands size (b.printAll size texts) (t ++ texts.flatten) := by
  induction texts generalizing b t with
  | nil => simpa [PrintBuffer.printAll] using h
  | cons text texts ih =>
      rw [List.flatten_cons, ← List.append_assoc] at hfits ⊢
      simp only [List.length_append] at hfits
      apply ih (h.print hsize (by omega) (by omega))
      simp only [List.length_append]
      omega

theorem Stands.printAll_ends (h : Stands size b t) (hpos : 0 < size) (hsize : size ≤ maxPrinted)
    (front : List Bytes) {last : Bytes} (hlast : last.length ≤ maxPrinted)
    (hfits : (t ++ front.flatten).length ≤ size) :
    (b.printAll size (front ++ [last])).overrun = false ∧
      (b.printAll size (front ++ [last])).text size =
        cstr ((t ++ (front ++ [last]).flatten).take (size - 1)) := by
  have hstands := h.printAll_fits hsize hfits
  rw [List.length_append] at hfits
  have hinside : (b.printAll size (front ++ [last])).overrun = false := by
    rw [PrintBuffer.printAll, List.foldl_concat]
    exact hstands.print_inside hsize (by rw [List.length_append]; exact hfits) last
  obtain ⟨t', htext, -, hall⟩ := h.text_printAll hpos hsize (by omega) front hlast hinside
  refine ⟨hinside, htext.trans ?_⟩
  rw [hall fun x hx => ?_]
  have hle := (List.sublist_flatten_of_mem hx).length_le
  omega

theorem printAll_fits (hpos : 0 < size) (hsize : size ≤ maxPrinted) (front : List Bytes)
    {last : Bytes} (hlast : last.length ≤ maxPrinted) (hfits : front.flatten.length ≤ size) :
    (PrintBuffer.printAll size {} (front ++ [last])).overrun = false ∧
      (PrintBuffer.printAll size {} (front ++ [last])).text size =
        cstr ((front ++ [last]).flatten.take (size - 1)) :=
  (stands_nil hpos).printAll_ends hpos hsize front hlast hfits

theorem overrun_of_lt (hpos : 0 < size) (hsize : size ≤ maxPrinted) {front : List Bytes}
    (last : Bytes) (hcount : ∀ x ∈ front, x.length ≤ maxPrinted)
    (hlt : size < front.flatten.length) :
    (PrintBuffer.printAll size {} (front ++ [last])).overrun = true := by
  rw [PrintBuffer.printAll, List.foldl_concat]
  apply print_off hsize
  rcases (stands_nil hpos).printAll hsize (Nat.zero_le _) front with
    hoff | ⟨t, hstands, hlen, -, hall⟩
  · exact hoff
  · rw [hall hcount, List.nil_append] at hstands hlen
    exact off_of_lt hstands hlt hlen hsize

/-! ## JSON texts -/

theorem counted_of_weigh {w : UInt8 → Nat} {texts : List Bytes} (hpos : ∀ x ∈ texts, 0 < weigh w x)
    (h : weigh w texts.flatten ≤ weigh w (counted texts).flatten) :
    ∀ x ∈ texts, x.length ≤ maxPrinted := by
  intro x hx
  by_contra hlong
  obtain ⟨before, behind, rfl⟩ := List.append_of_mem hx
  have hcounted : counted (before ++ x :: behind) = counted (before ++ behind) := by
    rw [counted, counted, List.filter_append, List.filter_append, List.filter_cons_of_neg]
    simpa using hlong
  have hsub : (counted (before ++ behind)).flatten.Sublist (before ++ behind).flatten :=
    List.filter_sublist.flatten
  have hle := weigh_le_of_sublist w hsub
  rw [hcounted] at h
  have hx := hpos x hx
  simp only [List.flatten_append, List.flatten_cons, weigh_append] at h hle
  omega

theorem weigh_counted (w : UInt8 → Nat) (texts : List Bytes) :
    weigh w (counted texts).flatten ≤ weigh w texts.flatten :=
  weigh_le_of_sublist w List.filter_sublist.flatten

theorem spells_cut {v : Json} (hv : v.Valid) (hfits : (v.text ++ ascii "\n").length ≤ size) :
    Spells (cstr ((v.text ++ ascii "\n").take (size - 1))) v.tree := by
  have hsays : ∀ gap, IsGap gap → Spells (v.text ++ gap) v.tree := fun gap hgap =>
    ⟨⟨[], v, gap⟩, ⟨.nil, hv, hgap⟩, rfl, rfl⟩
  have hspells : Spells (v.text ++ ascii "\n") v.tree := hsays _ (by decide)
  rw [cstr_eq_self fun hzero => hspells.zero_not_mem (List.mem_of_mem_take hzero)]
  rcases Nat.lt_or_ge (v.text ++ ascii "\n").length size with hlt | hge
  · rwa [List.take_of_length_le (by omega)]
  · have hlen : (v.text ++ ascii "\n").length = v.text.length + 1 := List.length_append
    rw [List.take_left' (by omega), ← List.append_nil v.text]
    exact hsays [] .nil

/-- **A value that is printed with a line end behind it**: the buffer holds a text of it, and no
write left the buffer, just when all strings can be written as they are and at most the line end
is cut off. -/
theorem printsJson_iff (hpos : 0 < size) (hsize : size ≤ maxPrinted) {front : List Bytes}
    {last body : Bytes} {v : Json} (hv : v.Spaced) (hbody : v.text = body ++ ascii "\x7d")
    (hlast : last.length ≤ maxPrinted) (hink : ∀ x ∈ front ++ [last], 0 < weigh ink x)
    (htext : (front ++ [last]).flatten = v.text ++ ascii "\n") :
    ((PrintBuffer.printAll size {} (front ++ [last])).overrun = false ∧
        Spells ((PrintBuffer.printAll size {} (front ++ [last])).text size) v.raw) ↔
      (v.text ++ ascii "\n").length ≤ size ∧ v.raw.Plain := by
  set full := v.text ++ ascii "\n" with hfull
  have hweight : weigh ink full = v.raw.weight ink := by
    have hgap : weigh ink (ascii "\n") = 0 := rfl
    rw [hfull, weigh_append, hgap, Json.weight_raw hv, Nat.add_zero]
  have hlen : full.length = v.text.length + 1 := by
    rw [hfull, List.length_append]
    rfl
  constructor
  · rintro ⟨hinside, hsays⟩
    obtain ⟨t, ht, hsub, hall⟩ := text_printAll hpos hsize front hlast hinside
    obtain ⟨hle, hplain⟩ := hsays.weight isWeight_ink
    rw [ht, ← hweight] at hle hplain
    have hmost := weigh_counted ink (front ++ [last])
    have hcounted := weigh_le_of_sublist ink hsub
    have hshown : weigh ink (cstr (t.take (size - 1))) ≤ weigh ink (t.take (size - 1)) :=
      weigh_le_of_sublist ink (List.takeWhile_sublist _)
    have hcut := weigh_le_of_sublist ink (List.take_sublist (size - 1) t)
    rw [htext] at hmost
    refine ⟨?_, hplain (by omega)⟩
    have hnone : weigh ink (front ++ [last]).flatten ≤
        weigh ink (counted (front ++ [last])).flatten := by
      rw [htext]
      omega
    have hsmall : ∀ x ∈ front, x.length ≤ maxPrinted := fun x hx =>
      counted_of_weigh hink hnone x (List.mem_append_left [last] hx)
    rw [hall hsmall, htext] at hshown hle
    by_contra hlong
    -- a cut before the last brace would show in the weight
    have hone : (ascii "\x7d").length = 1 ∧ weigh ink (ascii "\x7d\n") = 1 := ⟨rfl, rfl⟩
    have hsplit : full = body ++ ascii "\x7d\n" := by
      rw [hfull, hbody, List.append_assoc]
      rfl
    have hlenBody : v.text.length = body.length + 1 := by
      rw [hbody, List.length_append, hone.1]
    have htaken : full.take (size - 1) = body.take (size - 1) := by
      rw [hsplit, List.take_append_of_le_length (by omega)]
    have hbefore := weigh_le_of_sublist ink (List.take_sublist (size - 1) body)
    rw [htaken] at hshown hle
    rw [hsplit, weigh_append, hone.2] at hle
    omega
  · rintro ⟨hfits, hplain⟩
    obtain ⟨hvalid, htree⟩ := Json.valid_of_plain hv hplain
    obtain ⟨hinside, htaken⟩ := printAll_fits hpos hsize front hlast (by
      have hflat := congrArg List.length htext
      rw [List.flatten_append, List.length_append] at hflat
      omega)
    refine ⟨hinside, ?_⟩
    rw [htaken, htext, ← htree]
    exact spells_cut hvalid hfits

end BlessStar.Lib.FixedBuffer
