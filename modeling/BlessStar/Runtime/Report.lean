import BlessStar.Lib.ByteArea
import BlessStar.Lib.JsonText

/-!
# Reports

`bs_report_create`, the functions that add entries and `bs_report_to_json` of
`report.cpp`, with `bs_safe_snprintf`.  Allocations succeed; the bytes of a new
block are arbitrary.
-/

namespace BlessStar.Runtime

open Lib.ByteArea Lib.ByteString Lib.JsonText

inductive ReportLevel
  | debug
  | info
  | warn
  | error
  | fatal
  deriving DecidableEq

structure ReportEntry where
  level : ReportLevel
  message : Option Bytes
  stageName : Option Bytes

/-- `Report`, its entries from the newest one on. -/
structure Report where
  workflowName : Option Bytes
  entries : List ReportEntry := []

def reportCreate (workflowName : Option Bytes) : Report := { workflowName }

def reportAddEntry (r : Report) (level : ReportLevel) (stageName message : Option Bytes) : Report :=
  if message.isNone then r else { r with entries := { level, message, stageName } :: r.entries }

def reportAddDebug (r : Report) : Option Bytes → Option Bytes → Report := reportAddEntry r .debug

def reportAddInfo (r : Report) : Option Bytes → Option Bytes → Report := reportAddEntry r .info

def reportAddWarn (r : Report) : Option Bytes → Option Bytes → Report := reportAddEntry r .warn

def reportAddError (r : Report) : Option Bytes → Option Bytes → Report := reportAddEntry r .error

def reportAddFatal (r : Report) : Option Bytes → Option Bytes → Report := reportAddEntry r .fatal

/-- `buf`, `cap` and `len`, and whether a write went past `cap`. -/
structure JsonBuffer where
  buf : Area
  cap : Nat := 256
  len : Nat := 0
  overrun : Bool := false

/-- `while (need > cap) cap *= 2`. -/
def growCap (need cap : Nat) : Nat :=
  if cap < need ∧ 0 < cap then growCap need (cap * 2) else cap
termination_by need - cap

def intMax : Nat := 2147483647

/-- The difference of two `size_t`. -/
def sizeSub (a b : Nat) : Nat := if b ≤ a then a - b else 2 ^ 64 - (b - a)

namespace JsonBuffer

/-- `bs_safe_snprintf(buf + len, cap - len, ...)` with what it returns; a length that is no
`int` is an error. -/
def snprintf (b : JsonBuffer) (text : Bytes) : JsonBuffer × Option Nat :=
  let room := sizeSub b.cap b.len
  if room = 0 then (b, some 0)
  else
    let buf := write b.buf b.len (text.take (room - 1) ++ [0])
    ({ b with
        buf := write buf (b.len + room - 1) [0]
        overrun := b.overrun || decide (b.cap < b.len + room) },
      if text.length ≤ intMax then some text.length else none)

/-- A formatted write, and `len += written`. -/
def append (b : JsonBuffer) (text : Bytes) : JsonBuffer × Bool :=
  match b.snprintf text with
  | (b, none) => (b, false)
  | (b, some written) => ({ b with len := b.len + written }, true)

def text (b : JsonBuffer) : Bytes := cstr (read b.buf 0 b.cap)

end JsonBuffer

def reportHeader (r : Report) : Bytes :=
  ascii "\x7b\"workflow\":\"" ++ r.workflowName.getD [] ++ ascii "\",\"entries\":["

def reportEntryText (first : Bool) (e : ReportEntry) : Bytes :=
  (if first then [] else ascii ",") ++ ascii "\x7b\"stage\":\"" ++ e.stageName.getD [] ++
    ascii "\",\"message\":\"" ++ e.message.getD [] ++ ascii "\"\x7d"

def appendEntries (b : JsonBuffer) (first : Bool) : List ReportEntry → JsonBuffer × Bool
  | [] => (b, true)
  | e :: es =>
      match { b with cap := growCap (b.len + 128) b.cap }.append (reportEntryText first e) with
      | (b, false) => (b, false)
      | (b, true) => appendEntries b false es

/-- `bs_report_to_json`; the second part is false where it returns `NULL`. -/
def reportToJson (fresh : Area) (r : Report) : JsonBuffer × Bool :=
  match JsonBuffer.append { buf := fresh } (reportHeader r) with
  | (b, false) => (b, false)
  | (b, true) =>
      match appendEntries b true r.entries with
      | (b, false) => (b, false)
      | (b, true) =>
          (({ b with cap := growCap (b.len + 4) b.cap }.snprintf (ascii "]\x7d")).1, true)

def reportEntryTree (e : ReportEntry) : Tree :=
  .object (Fields.ofList [(ascii "stage", .string (e.stageName.getD [])),
    (ascii "message", .string (e.message.getD []))])

def reportTree (r : Report) : Tree :=
  .object (Fields.ofList [(ascii "workflow", .string (r.workflowName.getD [])),
    (ascii "entries", .array (Trees.ofList (r.entries.map reportEntryTree)))])

/-- A text comes back that is JSON for the report, and no write went past the buffer. -/
def PrintsReport (fresh : Area) (r : Report) : Prop :=
  (reportToJson fresh r).1.overrun = false ∧ (reportToJson fresh r).2 = true ∧
    Spells (reportToJson fresh r).1.text (reportTree r)

/-- A text behind `len` others is written whole. -/
def FitsAt (len : Nat) (text : Bytes) : Prop :=
  text.length ≤ intMax ∧ len + text.length < growCap (len + 128) 256

def EntriesFit (len : Nat) (first : Bool) : List ReportEntry → Prop
  | [] => True
  | e :: es =>
      FitsAt len (reportEntryText first e) ∧
        EntriesFit (len + (reportEntryText first e).length) false es

/-- No string needs an escape, and every part fits behind the parts before it. -/
structure Printable (r : Report) : Prop where
  workflow : IsPlain (r.workflowName.getD [])
  strings : ∀ e ∈ r.entries, IsPlain (e.stageName.getD []) ∧ IsPlain (e.message.getD [])
  header : (reportHeader r).length < 256
  entries : EntriesFit (reportHeader r).length true r.entries

theorem le_growCap {need cap : Nat} (h : 0 < cap) : need ≤ growCap need cap := by
  fun_induction growCap need cap with
  | case1 cap hgrow ih => exact ih (by omega)
  | case2 cap hstop => omega

theorem cap_le_growCap (need cap : Nat) : cap ≤ growCap need cap := by
  fun_induction growCap need cap with
  | case1 cap hgrow ih => omega
  | case2 cap hstop => exact le_rfl

theorem growCap_growCap {small large cap : Nat} (h : small ≤ large) :
    growCap large (growCap small cap) = growCap large cap := by
  fun_induction growCap small cap with
  | case1 cap hgrow ih =>
      rw [ih]
      conv_rhs => rw [growCap, if_pos ⟨by omega, hgrow.2⟩]
  | case2 cap hstop => rfl

/-- The buffer behind the parts `done`: they stand in it if each of them was written whole,
and if one was not, a NUL stands among them for good. -/
structure Progress (b : JsonBuffer) (done : Bytes) (whole : Prop) : Prop where
  len : b.len = done.length
  size : ∃ need, need ≤ b.len + 128 ∧ b.cap = growCap need 256
  overrun : b.overrun = false
  kept : whole → Holds b.buf 0 done ∧ b.len < b.cap
  cut : ¬whole → ∃ i, i < b.len ∧ i < b.cap ∧ b.buf i = 0

theorem snprintf_stored {b : JsonBuffer} {text : Bytes} (hroom : b.len < b.cap) :
    (b.snprintf text).1.overrun = b.overrun ∧ (b.snprintf text).1.cap = b.cap ∧
      (b.snprintf text).1.len = b.len ∧ SameBelow b.len b.buf (b.snprintf text).1.buf ∧
      (b.snprintf text).2 = (if text.length ≤ intMax then some text.length else none) ∧
      (b.len + text.length < b.cap → Holds (b.snprintf text).1.buf b.len (text ++ [0])) ∧
      (b.cap ≤ b.len + text.length → (b.snprintf text).1.buf (b.cap - 1) = 0) := by
  have hsize : sizeSub b.cap b.len = b.cap - b.len := if_pos hroom.le
  have hne : b.cap - b.len ≠ 0 := by omega
  have hlast : b.len + (b.cap - b.len) - 1 = b.cap - 1 := by omega
  rw [JsonBuffer.snprintf, hsize, if_neg hne]
  dsimp only
  rw [hlast]
  refine ⟨?_, rfl, rfl, ?_, rfl, ?_, ?_⟩
  · have hinside : ¬b.cap < b.len + (b.cap - b.len) := by omega
    rw [decide_eq_false hinside, Bool.or_false]
  · exact (sameBelow_write _ le_rfl).trans (sameBelow_write _ (by omega))
  · intro hfits
    have hall : text.take (b.cap - b.len - 1) = text := List.take_of_length_le (by omega)
    rw [hall]
    by_cases hend : b.len + text.length = b.cap - 1
    · -- the NUL of `buf[cap - 1]` is written over the one behind the text
      rw [holds_append_iff, hend]
      exact ⟨(holds_append_iff.mp holds_write).1.write (Or.inl hend.le), holds_write⟩
    · exact holds_write.write (Or.inl (by simp; omega))
  · intro _
    exact @write_inside (write b.buf b.len (text.take (b.cap - b.len - 1) ++ [0])) (b.cap - 1) [0]
      0 (by decide)

/-- **A write** behind the parts written so far. -/
theorem Progress.append {b : JsonBuffer} {done : Bytes} {whole : Prop} (h : Progress b done whole)
    (hroom : b.len < b.cap) (text : Bytes) :
    (b.append text).1.overrun = false ∧
      ((b.append text).2 = true ↔ text.length ≤ intMax) ∧
      ((b.append text).2 = true →
        Progress (b.append text).1 (done ++ text) (whole ∧ b.len + text.length < b.cap)) := by
  obtain ⟨hoverrun, hcap, hlen, hbelow, hprinted, hfits, hcut⟩ :=
    @snprintf_stored b text hroom
  rw [JsonBuffer.append]
  rcases hout : b.snprintf text with ⟨b', written⟩
  rw [hout] at hoverrun hcap hlen hbelow hprinted hfits hcut
  dsimp only at hoverrun hcap hlen hbelow hprinted hfits hcut
  by_cases hint : text.length ≤ intMax
  · rw [if_pos hint] at hprinted
    subst hprinted
    dsimp only
    refine ⟨hoverrun.trans h.overrun, iff_of_true rfl hint, fun _ => ⟨?_, ?_, ?_, ?_, ?_⟩⟩
    · simp only [hlen, h.len, List.length_append]
    · obtain ⟨need, hneed, hsize⟩ := h.size
      exact ⟨need, by simp only [hlen]; omega, hcap.trans hsize⟩
    · exact hoverrun.trans h.overrun
    · rintro ⟨hwhole, hlt⟩
      have hend : 0 + done.length = b.len := by rw [h.len, Nat.zero_add]
      refine ⟨?_, by simp only [hlen, hcap]; exact hlt⟩
      rw [holds_append_iff, hend]
      exact ⟨(h.kept hwhole).1.of_sameBelow hbelow hend.le,
        (holds_append_iff.mp (hfits hlt)).1⟩
    · intro hnot
      simp only [hlen, hcap]
      by_cases hwhole : whole
      · have hge : b.cap ≤ b.len + text.length := Nat.not_lt.mp fun hlt => hnot ⟨hwhole, hlt⟩
        exact ⟨b.cap - 1, by omega, by omega, hcut hge⟩
      · obtain ⟨i, hi, hicap, hzero⟩ := h.cut hwhole
        exact ⟨i, by omega, hicap, (hbelow i hi).trans hzero⟩
  · rw [if_neg hint] at hprinted
    subst hprinted
    exact ⟨hoverrun.trans h.overrun, iff_of_false Bool.false_ne_true hint,
      fun hok => absurd hok Bool.false_ne_true⟩

theorem Progress.congr {b : JsonBuffer} {done : Bytes} {whole whole' : Prop}
    (h : Progress b done whole) (hiff : whole ↔ whole') : Progress b done whole' where
  len := h.len
  size := h.size
  overrun := h.overrun
  kept hwhole := h.kept (hiff.mpr hwhole)
  cut hnot := h.cut fun hwhole => hnot (hiff.mp hwhole)

theorem Progress.grow {b : JsonBuffer} {done : Bytes} {whole : Prop} (h : Progress b done whole)
    {need : Nat} (hneed : need ≤ b.len + 128) :
    Progress { b with cap := growCap need b.cap } done whole where
  len := h.len
  size := by
    obtain ⟨need', hneed', hsize⟩ := h.size
    rcases le_total need' need with hle | hle
    · exact ⟨need, hneed, by rw [hsize, growCap_growCap hle]⟩
    · -- the capacity is large enough already
      refine ⟨need', hneed', ?_⟩
      have hlarge : need ≤ b.cap := by
        have hge := @le_growCap need' 256 (by decide)
        omega
      rw [growCap, if_neg (by omega), hsize]
  overrun := h.overrun
  kept hwhole := ⟨(h.kept hwhole).1, (h.kept hwhole).2.trans_le (cap_le_growCap _ _)⟩
  cut hnot := by
    obtain ⟨i, hi, hicap, hzero⟩ := h.cut hnot
    exact ⟨i, hi, hicap.trans_le (cap_le_growCap _ _), hzero⟩

def entriesText (first : Bool) : List ReportEntry → Bytes
  | [] => []
  | e :: es => reportEntryText first e ++ entriesText false es

/-- **The loop over the entries**. -/
theorem Progress.appendEntries {es : List ReportEntry} {b : JsonBuffer} {done : Bytes}
    {whole : Prop} (h : Progress b done whole) (first : Bool) :
    (appendEntries b first es).1.overrun = false ∧
      ((Runtime.appendEntries b first es).2 = false → ¬EntriesFit b.len first es) ∧
      ((Runtime.appendEntries b first es).2 = true →
        Progress (Runtime.appendEntries b first es).1 (done ++ entriesText first es)
          (whole ∧ EntriesFit b.len first es)) := by
  induction es generalizing b done whole first with
  | nil =>
      rw [Runtime.appendEntries, entriesText, List.append_nil]
      exact ⟨h.overrun, fun hfail => absurd hfail.symm Bool.false_ne_true,
        fun _ => h.congr (iff_of_eq (and_true _).symm)⟩
  | cons e es ih =>
      have hgrown := h.grow (le_refl (b.len + 128))
      have hcap : growCap (b.len + 128) b.cap = growCap (b.len + 128) 256 := by
        obtain ⟨need, hneed, hsize⟩ := h.size
        rw [hsize, growCap_growCap hneed]
      have hpos : 0 < b.cap := by
        obtain ⟨need, -, hsize⟩ := h.size
        have hge := cap_le_growCap need 256
        omega
      have hroom : b.len < growCap (b.len + 128) b.cap := by
        have hge := @le_growCap (b.len + 128) b.cap hpos
        omega
      obtain ⟨hoverrun, hok, hnext⟩ := hgrown.append hroom (reportEntryText first e)
      rw [Runtime.appendEntries, entriesText, EntriesFit, FitsAt, ← hcap]
      rcases hout : JsonBuffer.append { b with cap := growCap (b.len + 128) b.cap }
        (reportEntryText first e) with ⟨b', ok⟩
      rw [hout] at hoverrun hok hnext
      dsimp only at hoverrun hok hnext
      cases ok with
      | false =>
          refine ⟨hoverrun, fun _ hfit => ?_, fun hok => absurd hok Bool.false_ne_true⟩
          exact absurd (hok.mpr hfit.1.1) Bool.false_ne_true
      | true =>
          have hint := hok.mp rfl
          have hprogress := hnext rfl
          have hlen : b'.len = b.len + (reportEntryText first e).length := by
            rw [hprogress.len, h.len, List.length_append]
          obtain ⟨hoverrun', hfail', hdone'⟩ := ih hprogress false
          rw [hlen] at hfail' hdone'
          refine ⟨hoverrun', fun hfail hfit => hfail' hfail hfit.2, fun hok' => ?_⟩
          rw [← List.append_assoc]
          apply (hdone' hok').congr
          constructor
          · rintro ⟨⟨hwhole, hlt⟩, hrest⟩
            exact ⟨hwhole, ⟨hint, hlt⟩, hrest⟩
          · rintro ⟨hwhole, ⟨-, hlt⟩, hrest⟩
            exact ⟨⟨hwhole, hlt⟩, hrest⟩

theorem length_text_le {b : JsonBuffer} {i : Nat} (hzero : b.buf i = 0) :
    b.text.length ≤ i := by
  by_contra hlong
  have hpre : b.text <+: read b.buf 0 b.cap := List.takeWhile_prefix _
  have hbyte : b.text[i] = b.buf i := by
    rw [hpre.getElem (by omega)]
    simp [Lib.ByteArea.read]
  have hmem : b.text[i] ∈ b.text := List.getElem_mem (by omega)
  rw [hbyte, hzero] at hmem
  exact not_zero_mem_cstr _ hmem

theorem text_eq {b : JsonBuffer} {full : Bytes} (hfull : Holds b.buf 0 (full ++ [0]))
    (hcap : full.length < b.cap) (hnul : (0 : UInt8) ∉ full) : b.text = full := by
  have hsplit : read b.buf 0 b.cap =
      full ++ 0 :: read b.buf (0 + (full.length + 1)) (b.cap - (full.length + 1)) := by
    have hcut : b.cap = full.length + 1 + (b.cap - (full.length + 1)) := by omega
    have hhead : read b.buf 0 (full.length + 1) = full ++ [0] := hfull.read_eq (by simp)
    rw [hcut, read_add, hhead]
    simp
  rw [JsonBuffer.text, hsplit, cstr, List.takeWhile_append_of_pos, List.takeWhile_cons_of_neg,
    List.append_nil]
  · decide
  · intro c hc
    have hne : c ≠ 0 := fun heq => hnul (heq ▸ hc)
    simpa using hne

def fullText (r : Report) : Bytes :=
  reportHeader r ++ entriesText true r.entries ++ ascii "]\x7d"

def PartsFit (r : Report) : Prop :=
  (reportHeader r).length < 256 ∧ EntriesFit (reportHeader r).length true r.entries

/-- **No write goes past the buffer**, and what comes back is the whole text just when every
part fits. -/
theorem reportToJson_spec (fresh : Area) (r : Report) :
    (reportToJson fresh r).1.overrun = false ∧
      (PartsFit r → (0 : UInt8) ∉ fullText r →
        (reportToJson fresh r).2 = true ∧ (reportToJson fresh r).1.text = fullText r) ∧
      ((reportToJson fresh r).2 = true →
        (reportToJson fresh r).1.text.length ≤ (fullText r).length ∧
        ((reportToJson fresh r).1.text.length = (fullText r).length → PartsFit r)) := by
  have hsmall : 0 < 256 := by decide
  have hinit : Progress { buf := fresh } [] True := {
    len := rfl
    size := ⟨0, Nat.zero_le _, by rw [growCap, if_neg (by decide)]⟩
    overrun := rfl
    kept := fun _ => ⟨holds_nil, hsmall⟩
    cut := fun hnot => absurd trivial hnot }
  obtain ⟨hoverrun, hok, hnext⟩ := hinit.append hsmall (reportHeader r)
  rw [reportToJson]
  rcases hheader : JsonBuffer.append { buf := fresh } (reportHeader r) with ⟨b₁, ok₁⟩
  rw [hheader] at hoverrun hok hnext
  dsimp only at hoverrun hok hnext ⊢
  cases ok₁ with
  | false =>
      refine ⟨hoverrun, fun hfit => ?_, fun hfail => absurd hfail Bool.false_ne_true⟩
      have hint : (reportHeader r).length ≤ intMax := hfit.1.le.trans (by decide)
      exact absurd (hok.mpr hint) Bool.false_ne_true
  | true =>
  dsimp only
  have hprogress := hnext rfl
  have hlen : b₁.len = (reportHeader r).length := by simpa using hprogress.len
  have hstart : (True ∧ 0 + (reportHeader r).length < 256) ↔ (reportHeader r).length < 256 := by
    simp
  obtain ⟨hoverrun₁, hfail₁, hdone₁⟩ := (hprogress.congr hstart).appendEntries true
  rw [hlen] at hfail₁ hdone₁
  rcases hentries : appendEntries b₁ true r.entries with ⟨b₂, ok₂⟩
  rw [hentries] at hoverrun₁ hfail₁ hdone₁
  dsimp only at hoverrun₁ hfail₁ hdone₁ ⊢
  cases ok₂ with
  | false =>
      exact ⟨hoverrun₁, fun hfit => absurd hfit.2 (hfail₁ rfl),
        fun hfail => absurd hfail Bool.false_ne_true⟩
  | true =>
  dsimp only
  have hwritten : Progress b₂ (reportHeader r ++ entriesText true r.entries) (PartsFit r) :=
    hdone₁ rfl
  have hlast := hwritten.grow (by omega : b₂.len + 4 ≤ b₂.len + 128)
  have hpos : 0 < b₂.cap := by
    obtain ⟨need, -, hsize⟩ := hwritten.size
    have hge := cap_le_growCap need 256
    omega
  have hroom : b₂.len + 4 ≤ growCap (b₂.len + 4) b₂.cap := le_growCap hpos
  obtain ⟨hoverrun₂, hcap₂, -, hbelow₂, -, hfits₂, -⟩ :=
    @snprintf_stored { b₂ with cap := growCap (b₂.len + 4) b₂.cap } (ascii "]\x7d")
      (by dsimp only; omega)
  set b₃ := (JsonBuffer.snprintf { b₂ with cap := growCap (b₂.len + 4) b₂.cap }
    (ascii "]\x7d")).1 with hb₃
  have hfullLen : (fullText r).length = b₂.len + 2 := by
    rw [fullText, List.length_append, ← hwritten.len]
    rfl
  have hstands : Holds b₃.buf b₂.len (ascii "]\x7d" ++ [0]) := hfits₂ (by
    have hshort : (ascii "]\x7d").length = 2 := rfl
    dsimp only
    omega)
  have hend : b₃.buf (b₂.len + 2) = 0 :=
    holds_iff.mp (holds_append_iff.mp hstands).2 0 (by decide)
  refine ⟨hoverrun₂.trans hlast.overrun, fun hfit hnul => ⟨rfl, ?_⟩, fun _ => ⟨?_, ?_⟩⟩
  · have hkept := (hlast.kept hfit).1
    apply text_eq _ (by rw [hfullLen, hcap₂]; dsimp only; omega) hnul
    rw [fullText, List.append_assoc, holds_append_iff]
    have hzero : 0 + (reportHeader r ++ entriesText true r.entries).length = b₂.len := by
      rw [hwritten.len, Nat.zero_add]
    rw [hzero]
    exact ⟨hkept.of_sameBelow hbelow₂ hzero.le, hstands⟩
  · rw [hfullLen]
    exact length_text_le hend
  · intro heq
    by_contra hnot
    obtain ⟨i, hi, -, hzero⟩ := hlast.cut hnot
    have hshort := @length_text_le b₃ i ((hbelow₂ i hi).trans hzero)
    dsimp only at hi
    omega

def reportEntryJson (e : ReportEntry) : Json :=
  compactObject [(ascii "stage", .string (e.stageName.getD [])),
    (ascii "message", .string (e.message.getD []))]

def reportJson (r : Report) : Json :=
  compactObject [(ascii "workflow", .string (r.workflowName.getD [])),
    (ascii "entries", compactArray (r.entries.map reportEntryJson))]

theorem text_reportEntryJson (e : ReportEntry) :
    (reportEntryJson e).text = reportEntryText true e := by
  have hstage : ascii "\x7b\"stage\":\"" =
      ch '\x7b' :: ch '"' :: (ascii "stage" ++ [ch '"', ch ':', ch '"']) := by
    decide
  have hmessage : ascii "\",\"message\":\"" =
      ch '"' :: ch ',' :: ch '"' :: (ascii "message" ++ [ch '"', ch ':', ch '"']) := by
    decide
  have hend : ascii "\"\x7d" = [ch '"', ch '\x7d'] := rfl
  rw [reportEntryJson, text_compactObject, reportEntryText, hstage, hmessage, hend]
  simp [compactMember, Json.text, List.intercalate_cons_cons]

theorem entriesText_false (es : List ReportEntry) :
    entriesText false es = es.flatMap fun e => ch ',' :: reportEntryText true e := by
  induction es with
  | nil => rfl
  | cons e es ih =>
      have hcomma : reportEntryText false e = ch ',' :: reportEntryText true e := by
        rw [reportEntryText, reportEntryText]
        rfl
      rw [entriesText, ih, hcomma, List.flatMap_cons]

theorem text_reportJson (r : Report) : (reportJson r).text = fullText r := by
  have hentries : [ch ','].intercalate ((r.entries.map reportEntryJson).map Json.text) =
      entriesText true r.entries := by
    cases r.entries with
    | nil => rfl
    | cons e es =>
        rw [List.map_cons, List.map_cons, intercalate_cons_flatMap, entriesText,
          entriesText_false, text_reportEntryJson]
        simp [List.flatMap_map, text_reportEntryJson]
  have hworkflow : ascii "\x7b\"workflow\":\"" =
      ch '\x7b' :: ch '"' :: (ascii "workflow" ++ [ch '"', ch ':', ch '"']) := by
    decide
  have hlist : ascii "\",\"entries\":[" =
      ch '"' :: ch ',' :: ch '"' :: (ascii "entries" ++ [ch '"', ch ':', ch '[']) := by
    decide
  have hend : ascii "]\x7d" = [ch ']', ch '\x7d'] := rfl
  rw [reportJson, text_compactObject, fullText, reportHeader, hworkflow, hlist, hend,
    ← hentries]
  simp [compactMember, Json.text, text_compactArray, List.intercalate_cons_cons]

theorem spells_fullText {r : Report} (hworkflow : IsPlain (r.workflowName.getD []))
    (hstrings : ∀ e ∈ r.entries, IsPlain (e.stageName.getD []) ∧ IsPlain (e.message.getD [])) :
    Spells (fullText r) (reportTree r) := by
  have hkeys : ∀ key ∈ ["workflow", "entries", "stage", "message"], IsPlain (ascii key) := by
    decide
  simp only [List.forall_mem_cons] at hkeys
  obtain ⟨hkworkflow, hkentries, hkstage, hkmessage, -⟩ := hkeys
  have hentry : ∀ e ∈ r.entries, (reportEntryJson e).Valid ∧
      (reportEntryJson e).tree = reportEntryTree e := by
    intro e he
    obtain ⟨hstage, hmessage⟩ := hstrings e he
    constructor
    · apply valid_compactObject
      simp only [List.forall_mem_cons]
      exact ⟨⟨hkstage.isBody, hstage.isBody⟩, ⟨hkmessage.isBody, hmessage.isBody⟩,
        List.forall_mem_nil _⟩
    · rw [reportEntryJson, tree_compactObject]
      simp only [List.map_cons, List.map_nil, Json.tree, hkstage.decode_eq, hkmessage.decode_eq,
        hstage.decode_eq, hmessage.decode_eq, reportEntryTree]
  have hvalid : (reportJson r).Valid := by
    apply valid_compactObject
    simp only [List.forall_mem_cons]
    refine ⟨⟨hkworkflow.isBody, hworkflow.isBody⟩, ⟨hkentries.isBody, ?_⟩,
      List.forall_mem_nil _⟩
    apply valid_compactArray
    intro v hv
    obtain ⟨e, he, rfl⟩ := List.mem_map.mp hv
    exact (hentry e he).1
  refine ⟨⟨[], reportJson r, []⟩, ⟨.nil, hvalid, .nil⟩, ?_, ?_⟩
  · rw [Document.text, List.nil_append, List.append_nil]
    exact text_reportJson r
  · have htrees : (r.entries.map reportEntryJson).map Json.tree =
        r.entries.map reportEntryTree := by
      rw [List.map_map]
      exact List.map_congr_left fun e he => (hentry e he).2
    rw [reportJson, tree_compactObject]
    simp only [List.map_cons, List.map_nil, tree_compactArray, htrees, Json.tree,
      hkworkflow.decode_eq, hkentries.decode_eq, hworkflow.decode_eq, reportTree]

theorem width_reportEntryTree (e : ReportEntry) :
    (reportEntryTree e).width = (reportEntryText true e).length := by
  have hkeys : (ascii "stage").length = 5 ∧ (ascii "message").length = 7 := ⟨rfl, rfl⟩
  have hparts : (ascii "\x7b\"stage\":\"").length = 10 ∧
      (ascii "\",\"message\":\"").length = 13 ∧ (ascii "\"\x7d").length = 2 := ⟨rfl, rfl, rfl⟩
  simp only [reportEntryTree, Fields.ofList, Tree.width, Fields.width, hkeys, reportEntryText,
    if_true, List.length_append, hparts, List.length_nil]
  omega

theorem width_reportTree (r : Report) : (reportTree r).width = (fullText r).length := by
  have hentries : ∀ e es, (Trees.ofList ((e :: es).map reportEntryTree)).width =
      (entriesText true (e :: es)).length := by
    intro e es
    induction es generalizing e with
    | nil => simp [Trees.ofList, Trees.width, entriesText, width_reportEntryTree]
    | cons e' es ih =>
        have hrest := ih e'
        have hne : Trees.ofList ((e' :: es).map reportEntryTree) ≠ .nil := Trees.noConfusion
        rw [List.map_cons, Trees.ofList, Trees.width_cons hne, hrest, width_reportEntryTree]
        have hcomma : (reportEntryText false e').length = (reportEntryText true e').length + 1 := by
          simp only [reportEntryText, List.length_append]
          have hone : (ascii ",").length = 1 := rfl
          simp [hone]
          omega
        simp only [entriesText, List.length_append, hcomma]
        omega
  have hkeys : (ascii "workflow").length = 8 ∧ (ascii "entries").length = 7 := ⟨rfl, rfl⟩
  have hparts : (ascii "\x7b\"workflow\":\"").length = 13 ∧
      (ascii "\",\"entries\":[").length = 13 ∧ (ascii "]\x7d").length = 2 := ⟨rfl, rfl, rfl⟩
  have htrees : (Trees.ofList (r.entries.map reportEntryTree)).width =
      (entriesText true r.entries).length := by
    cases r.entries with
    | nil => rfl
    | cons e es => exact hentries e es
  simp only [reportTree, Fields.ofList, Tree.width, Fields.width, hkeys, fullText, reportHeader,
    List.length_append, hparts, htrees]
  omega

theorem plain_reportTree {r : Report} (h : (reportTree r).Plain) :
    IsPlain (r.workflowName.getD []) ∧
      ∀ e ∈ r.entries, IsPlain (e.stageName.getD []) ∧ IsPlain (e.message.getD []) := by
  have hentries : ∀ es : List ReportEntry, (Trees.ofList (es.map reportEntryTree)).Plain →
      ∀ e ∈ es, IsPlain (e.stageName.getD []) ∧ IsPlain (e.message.getD []) := by
    intro es
    induction es with
    | nil => exact fun _ => List.forall_mem_nil _
    | cons e es ih =>
        rintro ⟨⟨-, hstage, -, hmessage, -⟩, hrest⟩
        exact List.forall_mem_cons.mpr ⟨⟨hstage, hmessage⟩, ih hrest⟩
  obtain ⟨-, hworkflow, -, hlist, -⟩ := h
  exact ⟨hworkflow, hentries r.entries hlist⟩

theorem printable_iff (r : Report) :
    Printable r ↔ PartsFit r ∧ IsPlain (r.workflowName.getD []) ∧
      ∀ e ∈ r.entries, IsPlain (e.stageName.getD []) ∧ IsPlain (e.message.getD []) :=
  ⟨fun h => ⟨⟨h.header, h.entries⟩, h.workflow, h.strings⟩,
    fun h => ⟨h.2.1, h.2.2, h.1.1, h.1.2⟩⟩

theorem PrintsReport.printable {fresh : Area} {r : Report} (h : PrintsReport fresh r) :
    Printable r := by
  obtain ⟨-, hok, hspells⟩ := h
  obtain ⟨hwidth, hplain⟩ := hspells.width
  obtain ⟨hle, hfit⟩ := (reportToJson_spec fresh r).2.2 hok
  rw [width_reportTree] at hwidth hplain
  have heq : (reportToJson fresh r).1.text.length = (fullText r).length := by omega
  rw [printable_iff]
  exact ⟨hfit heq, plain_reportTree (hplain heq.symm)⟩

theorem Printable.prints {r : Report} (h : Printable r) (fresh : Area) : PrintsReport fresh r := by
  obtain ⟨hoverrun, hwhole, -⟩ := reportToJson_spec fresh r
  have hspells := spells_fullText h.workflow h.strings
  obtain ⟨hok, htext⟩ := hwhole ⟨h.header, h.entries⟩ hspells.zero_not_mem
  rw [PrintsReport, htext]
  exact ⟨hoverrun, hok, hspells⟩

/-- **`bs_report_to_json`** never writes past its buffer, and gives JSON for the report just
when no string needs an escape and every part fits behind the parts before it. -/
theorem printsReport_iff (fresh : Area) (r : Report) :
    (reportToJson fresh r).1.overrun = false ∧ (PrintsReport fresh r ↔ Printable r) :=
  ⟨(reportToJson_spec fresh r).1, fun h => h.printable, fun h => h.prints fresh⟩

/-- A message with a quote. -/
theorem quoted_message_not_printed :
    ¬PrintsReport (fun _ => 0)
      (reportAddInfo (reportCreate (some (ascii "reload"))) (some (ascii "gate"))
        (some (ascii "\""))) := by
  intro h
  have hplain := (h.printable.strings _ List.mem_cons_self).2
  exact absurd hplain (by decide)

end BlessStar.Runtime
