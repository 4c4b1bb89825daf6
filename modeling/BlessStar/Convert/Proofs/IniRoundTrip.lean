import BlessStar.Convert.Proofs.IniWriting

/-!
# Reading INI back

A line is read back when its key is plain and its value a scalar that comes
through; an entry is at its path when the right section is open.  Every line
gives one entry at most, so the entries are those of the object only if each of
its lines gives its own.
-/

namespace BlessStar.Convert.Proofs.IniRoundTrip

open Lib.ByteString Lib.JsonText Lib.IniText IniWriting

variable {s text : Bytes} {key : MemberKey} {value : Json} {name : Option Bytes}

theorem unquote_valueText (hvalue : value.Valid) (hscalar : scalarValue value = some text) :
    unquote (valueText value) = text ↔ ValueKept value := by
  cases value with
  | string body =>
      obtain rfl : decode body = text := Option.some.inj hscalar
      have hquoted : unquote (valueText (.string body)) = body := by
        rw [valueText]
        split
        · exact unquote_quoted body
        · exact unquote_of_head (IsBody.head_ne_quote hvalue)
      rw [hquoted]
      exact eq_comm
  | number number =>
      obtain rfl : number = text := Option.some.inj hscalar
      have hplain : unquote (valueText (.number number)) = number.take 127 := by
        refine unquote_of_head fun hhead => ?_
        have hquote := IsNumber.forall hvalue (· ≠ ch '"') (by decide)
        exact hquote _ (List.mem_of_mem_take (List.mem_of_mem_head? hhead)) rfl
      rw [hplain, List.take_eq_self_iff]
      exact Iff.rfl
  | word w =>
      obtain rfl : w.text = text := Option.some.inj hscalar
      have hplain : unquote (valueText (.word w)) = w.text := by cases w <;> decide
      rw [hplain]
      exact iff_of_true rfl trivial
  | emptyArray | array | emptyObject | object => exact absurd hscalar (by simp [scalarValue])

theorem getLast_valueText (hvalue : value.Valid) (hscalar : (scalarValue value).isSome) :
    (valueText value).getLast? = some (ch ']') ↔
      ∃ body, value = .string body ∧ body.getLast? = some (ch ']') ∧
        ∀ c ∈ body, c ∉ ascii " =;#" := by
  have hspecial : ∀ c : UInt8, c ∈ ascii " =;#" ↔
      c = ch ' ' ∨ c = ch '=' ∨ c = ch ';' ∨ c = ch '#' := by
    intro c
    rw [show ascii " =;#" = [ch ' ', ch '=', ch ';', ch '#'] from rfl]
    simp only [List.mem_cons, List.not_mem_nil, or_false]
  cases value with
  | string body =>
      rw [valueText]
      split
      · next hquote =>
          refine iff_of_false (fun h => ?_) ?_
          · rw [List.getLast?_cons, List.getLast?_concat] at h
            exact absurd (Option.some.inj h) (by decide)
          · rintro ⟨body', hbody, -, hplain⟩
            obtain rfl := Json.string.inj hbody
            obtain ⟨c, hc, hin⟩ := List.any_eq_true.mp hquote
            exact hplain c hc ((hspecial c).mpr (of_decide_eq_true hin))
      · next hquote =>
          constructor
          · refine fun hlast => ⟨body, rfl, hlast, fun c hc hin => hquote ?_⟩
            exact List.any_eq_true.mpr ⟨c, hc, decide_eq_true ((hspecial c).mp hin)⟩
          · rintro ⟨body', hbody, hlast, -⟩
            obtain rfl := Json.string.inj hbody
            exact hlast
  | number number =>
      refine iff_of_false (fun h => ?_) (by rintro ⟨_, hbody, -⟩; exact Json.noConfusion hbody)
      have hplain := IsNumber.forall hvalue (· ≠ ch ']') (by decide)
      exact hplain _ (List.mem_of_mem_take (List.mem_of_mem_getLast? h)) rfl
  | word w =>
      refine iff_of_false ?_ (by rintro ⟨_, hbody, -⟩; exact Json.noConfusion hbody)
      cases w <;> decide
  | emptyArray | array | emptyObject | object => exact absurd hscalar (by simp [scalarValue])

theorem isBlank_of_body {c : UInt8} (hc : 32 ≤ c) : isBlank c = true ↔ c = ch ' ' := by
  constructor
  · intro h
    have hcases : ∀ c ∈ ascii " \t", 32 ≤ c → c = ch ' ' := by decide
    exact hcases c (of_decide_eq_true h) hc
  · rintro rfl
    rfl

theorem dropWhile_assignment {blanks u : Bytes} (hblanks : ∀ c ∈ blanks, isBlank c = true)
    {c : UInt8} (hc : 32 ≤ c) (hspace : c ≠ ch ' ') :
    (blanks ++ c :: u).dropWhile isBlank = c :: u := by
  rw [List.dropWhile_append_of_pos hblanks]
  exact List.dropWhile_cons_of_neg (mt (isBlank_of_body hc).mp hspace)

/-- **An entry is read back** exactly when it is kept. -/
theorem readLine_assignment (hkey : key.Valid) (hvalue : value.Valid)
    (hscalar : scalarValue value = some text) {blanks : Bytes}
    (hblanks : ∀ c ∈ blanks, isBlank c = true) :
    readLine (blanks ++ assignment key value) = .entry (decode key.body) text ↔
      EntryKept key value := by
  have hsome : (scalarValue value).isSome := by rw [hscalar]; rfl
  have hlast := getLast_valueText hvalue hsome
  constructor
  · intro h
    obtain ⟨v, hsplit, hunquote, hbrackets⟩ := append_of_readLine h
    have htext := append_of_splitAssign hsplit
    -- the key begins with no space, for the text does not
    have hbegins : ∃ c u, key.body = c :: u ∧ c ≠ ch ' ' ∧ 32 ≤ c := by
      have hhead : ∀ d ∈ (decode key.body ++ (ascii " = " ++ v)).head?, isBlank d = false := by
        intro d hd
        have hnot := List.head?_dropWhile_not isBlank (blanks ++ assignment key value)
        rw [htext, show (decode key.body ++ (ascii " = " ++ v)).head? = some d from hd] at hnot
        simpa using hnot
      cases hbody : key.body with
      | nil =>
          rw [hbody] at hhead
          exact absurd (hhead (ch ' ') rfl) (by decide)
      | cons c u =>
          refine ⟨c, u, rfl, ?_, IsBody.ge hkey.body c (hbody ▸ List.mem_cons_self)⟩
          rintro rfl
          rw [hbody] at hhead
          have hdecode : decode (ch ' ' :: u) = ch ' ' :: decode u :=
            IsBody.decode_append_space (a := []) (hbody ▸ hkey.body)
          rw [hdecode] at hhead
          exact absurd (hhead (ch ' ') rfl) (by decide)
    obtain ⟨c, u, hbody, hspace, hc⟩ := hbegins
    have hline : (blanks ++ assignment key value).dropWhile isBlank =
        key.body ++ (ascii " = " ++ valueText value) := by
      rw [assignment, hbody]
      exact dropWhile_assignment hblanks hc hspace
    rw [hline] at htext hsplit hbrackets
    -- so it is read up to its end
    have hplain : decode key.body = key.body := by
      rcases List.append_eq_append_iff.mp htext with ⟨w, hw, -⟩ | ⟨w, hw, hrest⟩
      · have hlength := (IsBody.length_decode hkey.body).1
        rw [hw, List.length_append] at hlength
        obtain rfl : w = [] := List.eq_nil_of_length_eq_zero (by omega)
        rw [hw, List.append_nil]
      · cases w with
        | nil =>
            rw [List.append_nil] at hw
            exact hw.symm
        | cons d w =>
            obtain rfl : ch ' ' = d := (List.cons.inj hrest).1
            have hdivided := hkey.body
            rw [hw] at hdivided
            exact absurd (congrArg decode hw).symm (IsBody.decode_ne_before_space hdivided)
    rw [hplain] at hsplit htext
    have hv := List.append_cancel_left (List.append_cancel_left htext)
    refine ⟨⟨hplain, ⟨c, u, hbody, hspace⟩, unsplit_of_splitAssign hsplit⟩, ?_, ?_⟩
    · exact (unquote_valueText hvalue hscalar).mp (by rw [hv, hunquote])
    · rintro ⟨hhead, hend⟩
      refine hbrackets ⟨?_, ?_⟩
      · rw [List.head?_append, hhead]
        rfl
      · rw [List.getLast?_append, List.getLast?_append, hlast.mpr hend]
        rfl
  · rintro ⟨⟨hplain, ⟨c, u, hbody, hspace⟩, hunsplit⟩, hkept, hunbracketed⟩
    have hc : 32 ≤ c := IsBody.ge hkey.body c (hbody ▸ List.mem_cons_self)
    have hread : readLine (blanks ++ (key.body ++ (ascii " = " ++ valueText value))) =
        .entry key.body (unquote (valueText value)) :=
      readLine_assign hblanks (by rw [hbody]; exact List.cons_ne_nil c u)
        (by
          intro d hd
          rw [hbody] at hd
          obtain rfl : c = d := Option.some.inj hd
          exact Bool.eq_false_iff.mpr (mt (isBlank_of_body hc).mp hspace))
        hunsplit (fun h => hunbracketed ⟨h.1, hlast.mp h.2⟩)
    rw [assignment, hread, hplain, (unquote_valueText hvalue hscalar).mpr hkept]

theorem blanks_of_indent : ∀ c ∈ ascii "  ", isBlank c = true := by decide

theorem atMost_section (members : Members) (name : Bytes) {rest : List Bytes} {n : Nat}
    (h : AtMost rest n) :
    AtMost (sectionLines members ++ rest) ((sectionEntries name members).length + n) := by
  cases members with
  | last key value after =>
      rw [show (sectionEntries name (.last key value after)).length + n = n + 1 from Nat.add_comm _ _]
      exact h.cons _
  | more key value after more =>
      rw [show (sectionEntries name (.more key value after more)).length + n =
        (sectionEntries name more).length + n + 1 from Nat.add_right_comm _ _ _]
      exact (atMost_section more name h).cons _

/-- **A section is read back** when it is open and its entries are kept. -/
theorem readLines_section (members : Members) (hv : members.Valid) (hflat : SectionFlat members)
    (name : Option Bytes) (parent : Bytes) {rest : List Bytes} {entries : List Entry}
    (h : AtMost rest entries.length) :
    readLines name (sectionLines members ++ rest) = sectionEntries parent members ++ entries ↔
      (name = some parent ∧ SectionKept members) ∧ readLines name rest = entries := by
  match members with
  | .last key value after =>
      obtain ⟨text, htext⟩ := Option.isSome_iff_exists.mp hflat
      rw [sectionLines, sectionEntries, List.singleton_append, List.singleton_append,
        readLines_cons_iff h, htext]
      dsimp only [Option.getD_some]
      rw [readLine_assignment hv.1 hv.2.1 htext blanks_of_indent]
      exact Iff.rfl
  | .more key value after more =>
      obtain ⟨text, htext⟩ := Option.isSome_iff_exists.mp hflat.1
      have hmost := atMost_section more parent h
      rw [← List.length_append] at hmost
      rw [sectionLines, sectionEntries, List.cons_append, List.cons_append,
        readLines_cons_iff hmost, htext]
      dsimp only [Option.getD_some]
      rw [readLine_assignment hv.1 hv.2.1 htext blanks_of_indent,
        readLines_section more hv.2.2.2 hflat.2 name parent h]
      simp only [SectionKept]
      constructor
      · rintro ⟨⟨hname, hkept⟩, ⟨-, hkepts⟩, hrest⟩
        exact ⟨⟨hname, hkept, hkepts⟩, hrest⟩
      · rintro ⟨⟨hname, hkept, hkepts⟩, hrest⟩
        exact ⟨⟨hname, hkept⟩, ⟨hname, hkepts⟩, hrest⟩

theorem readLine_header (key : Bytes) : readLine (headerLine key) = .header (sectionName key) :=
  readLine_bracketed _

theorem atMost_member (hflat : MemberFlat value) (key : MemberKey) {rest : List Bytes} {n : Nat}
    (h : AtMost rest n) :
    AtMost (memberLines key value ++ rest) ((memberEntries key value).length + n) := by
  cases value with
  | string body =>
      rw [show (memberEntries key (.string body)).length + n = n + 1 from Nat.add_comm _ _]
      exact h.cons _
  | number number =>
      rw [show (memberEntries key (.number number)).length + n = n + 1 from Nat.add_comm _ _]
      exact h.cons _
  | word w =>
      rw [show (memberEntries key (.word w)).length + n = n + 1 from Nat.add_comm _ _]
      exact h.cons _
  | emptyObject ws =>
      rw [show (memberEntries key (.emptyObject ws)).length + n = n from Nat.zero_add n]
      exact (h.other readLine_nil).header (readLine_header key.body)
  | object members =>
      have hsection := atMost_section members (decode key.body) (h.other readLine_nil)
      rw [memberLines, List.cons_append, List.append_assoc]
      exact hsection.header (readLine_header key.body)
  | emptyArray | array => exact absurd hflat (by simp [MemberFlat, scalarValue])

def nameAfter (name : Option Bytes) (key : MemberKey) (value : Json) : Option Bytes :=
  if opensSection value then some (sectionName key.body) else name

theorem readLines_scalar (hkey : key.Valid) (hvalue : value.Valid)
    (hscalar : scalarValue value = some text) (name : Option Bytes) {rest : List Bytes}
    {entries : List Entry} (h : AtMost rest entries.length) :
    readLines name (assignment key value :: rest) =
        ⟨none, decode key.body, text⟩ :: entries ↔
      (name.isSome = false ∧ EntryKept key value) ∧ readLines name rest = entries := by
  have hline : readLine ([] ++ assignment key value) = .entry (decode key.body) text ↔
      EntryKept key value := readLine_assignment hkey hvalue hscalar (by simp)
  rw [List.nil_append] at hline
  rw [readLines_cons_iff h]
  dsimp only
  rw [hline]
  cases name <;> simp

/-- **A member is read back** exactly when it is kept. -/
theorem readLines_member (hkey : key.Valid) (hvalue : value.Valid) (hflat : MemberFlat value)
    (name : Option Bytes) {rest : List Bytes} {entries : List Entry}
    (h : AtMost rest entries.length) :
    readLines name (memberLines key value ++ rest) = memberEntries key value ++ entries ↔
      MemberKept name.isSome key value ∧ readLines (nameAfter name key value) rest = entries := by
  cases value with
  | string body => exact readLines_scalar hkey hvalue rfl name h
  | number number => exact readLines_scalar hkey hvalue rfl name h
  | word w => exact readLines_scalar hkey hvalue rfl name h
  | emptyObject ws =>
      rw [memberLines, List.cons_append, readLines_header (readLine_header _), List.cons_append,
        readLines_other readLine_nil]
      exact (and_iff_right trivial).symm
  | object members =>
      rw [memberLines, List.cons_append, readLines_header (readLine_header _), List.append_assoc,
        List.singleton_append, memberEntries,
        readLines_section members hvalue hflat _ _ (h.other readLine_nil),
        readLines_other readLine_nil, Option.some.injEq]
      rw [eq_comm (a := sectionName key.body)]
      exact Iff.rfl
  | emptyArray | array => exact absurd hflat (by simp [MemberFlat, scalarValue])

theorem atMost_end : AtMost [[]] 0 := fun name => by
  rw [readLines_other readLine_nil]
  exact Nat.le_refl 0

theorem atMost_members (members : Members) (hflat : MembersFlat members) :
    AtMost (iniLines members ++ [[]]) (iniEntries members).length := by
  match members with
  | .last key value after => exact atMost_member hflat key atMost_end
  | .more key value after rest =>
      rw [iniLines, List.append_assoc, iniEntries, List.length_append]
      exact atMost_member hflat.1 key (atMost_members rest hflat.2)

/-- **The members are read back** exactly when each of them is kept. -/
theorem readLines_members (members : Members) (hv : members.Valid) (hflat : MembersFlat members)
    (name : Option Bytes) :
    readLines name (iniLines members ++ [[]]) = iniEntries members ↔
      MembersKeptIni name.isSome members := by
  have hnext : ∀ key value, (nameAfter name key value).isSome =
      (name.isSome || opensSection value) := by
    intro key value
    unfold nameAfter
    cases opensSection value <;> cases name <;> rfl
  match members with
  | .last key value after =>
      have hend : AtMost [[]] ([] : List Entry).length := atMost_end
      have hmember := readLines_member hv.1 hv.2.1 hflat name hend
      rw [List.append_nil] at hmember
      rw [iniLines, iniEntries, hmember, MembersKeptIni, readLines_other readLine_nil]
      exact and_iff_left rfl
  | .more key value after rest =>
      rw [iniLines, iniEntries, List.append_assoc,
        readLines_member hv.1 hv.2.1 hflat.1 name (atMost_members rest hflat.2),
        readLines_members rest hv.2.2.2 hflat.2, hnext]
      exact Iff.rfl

theorem isSome_of_kept (hkept : ValueKept value) : (scalarValue value).isSome := by
  cases value with
  | string | number | word => rfl
  | emptyArray | array | emptyObject | object => exact absurd hkept id

theorem sectionFlat_of_kept (members : Members) (hkept : SectionKept members) :
    SectionFlat members := by
  match members with
  | .last _ _ _ => exact isSome_of_kept hkept.2.1
  | .more _ _ _ rest => exact ⟨isSome_of_kept hkept.1.2.1, sectionFlat_of_kept rest hkept.2⟩

theorem memberFlat_of_kept {opened : Bool} (hkept : MemberKept opened key value) :
    MemberFlat value := by
  cases value with
  | string | number | word => rfl
  | emptyObject => exact trivial
  | object members => exact sectionFlat_of_kept members hkept.2
  | emptyArray | array => exact absurd hkept.2.2.1 id

theorem membersFlat_of_kept (members : Members) {opened : Bool}
    (hkept : MembersKeptIni opened members) : MembersFlat members := by
  match members with
  | .last _ _ _ => exact memberFlat_of_kept hkept
  | .more _ _ _ rest => exact ⟨memberFlat_of_kept hkept.1, membersFlat_of_kept rest hkept.2⟩

theorem readIni_document {doc : Document} (hdoc : doc.Valid)
    (hobject : ∃ fields, doc.value.tree = .object fields) (hflat : DocumentFlat doc) :
    IniKeeps doc ↔ DocumentKeptIni doc := by
  obtain ⟨hrc, hout⟩ := internalToIni_lines hdoc hobject hflat
  have hread : readIni (unlines (documentLines doc.value ++ [[]])) = documentEntries doc.value ↔
      DocumentKeptIni doc := by
    rw [readIni, getLines_document hdoc.value]
    obtain ⟨before, v, after⟩ := doc
    obtain ⟨fields, hfields⟩ := hobject
    cases v with
    | string | number | word | emptyArray | array => exact Tree.noConfusion hfields
    | emptyObject ws => exact iff_of_true rfl trivial
    | object members => exact readLines_members members hdoc.value hflat none
  rw [← hread]
  constructor
  · rintro ⟨-, text, htext, hentries⟩
    rw [hout] at htext
    rw [List.append_cancel_right htext, hentries]
  · exact fun hentries => ⟨hrc, _, hout, hentries⟩

/-- **The conversion keeps every scalar at its path** where scalars come before
sections, sections hold scalars, and keys and values come through; among the
objects of scalars and sections of scalars there are no others. -/
theorem internalToIni_keeps {doc : Document} (hdoc : doc.Valid)
    (hobject : ∃ fields, doc.value.tree = .object fields) :
    (DocumentKeptIni doc → IniKeeps doc) ∧
      (DocumentFlat doc → IniKeeps doc → DocumentKeptIni doc) := by
  constructor
  · intro hkept
    refine (readIni_document hdoc hobject ?_).mpr hkept
    obtain ⟨before, v, after⟩ := doc
    cases v with
    | object members => exact membersFlat_of_kept members hkept
    | string | number | word | emptyArray | array | emptyObject => exact trivial
  · exact fun hflat => (readIni_document hdoc hobject hflat).mp

/-- `{"debug": true, "server": {"host": "dev"}}`. -/
def server : Document :=
  { before := []
    value := .object (.more ⟨[], ascii "debug", [], ascii " "⟩ (.word .true) []
      (.last ⟨ascii " ", ascii "server", [], ascii " "⟩
        (.object (.last ⟨[], ascii "host", [], ascii " "⟩ (.string (ascii "dev")) [])) []))
    after := [] }

/-- `{"server": {"host": "dev"}, "debug": true}`. -/
def serverFirst : Document :=
  { before := []
    value := .object (.more ⟨[], ascii "server", [], ascii " "⟩
      (.object (.last ⟨[], ascii "host", [], ascii " "⟩ (.string (ascii "dev")) [])) []
      (.last ⟨ascii " ", ascii "debug", [], ascii " "⟩ (.word .true) []))
    after := [] }

theorem server_valid : server.Valid :=
  ⟨IsGap.nil, ⟨⟨IsGap.nil, isBody_of_plain (by decide), IsGap.nil, (by decide : IsGap (ascii " "))⟩,
    trivial, IsGap.nil, ⟨(by decide : IsGap (ascii " ")), isBody_of_plain (by decide), IsGap.nil,
      (by decide : IsGap (ascii " "))⟩, ⟨⟨IsGap.nil, isBody_of_plain (by decide), IsGap.nil,
      (by decide : IsGap (ascii " "))⟩, isBody_of_plain (by decide), IsGap.nil⟩, IsGap.nil⟩, IsGap.nil⟩

theorem serverFirst_valid : serverFirst.Valid :=
  ⟨IsGap.nil, ⟨⟨IsGap.nil, isBody_of_plain (by decide), IsGap.nil, (by decide : IsGap (ascii " "))⟩,
    ⟨⟨IsGap.nil, isBody_of_plain (by decide), IsGap.nil, (by decide : IsGap (ascii " "))⟩,
      isBody_of_plain (by decide), IsGap.nil⟩, IsGap.nil, ⟨(by decide : IsGap (ascii " ")),
      isBody_of_plain (by decide), IsGap.nil, (by decide : IsGap (ascii " "))⟩, trivial, IsGap.nil⟩,
    IsGap.nil⟩

theorem keyKept_plain {k : Bytes} (hslash : ch '\\' ∉ k) (hbegins : ∃ c s, k = c :: s ∧ c ≠ ch ' ')
    (hunsplit : ¬ascii " = " <:+: k ++ ascii " =") : KeyKept k :=
  ⟨decode_of_not_mem hslash, hbegins, hunsplit⟩

theorem server_keeps : IniKeeps server :=
  (internalToIni_keeps server_valid ⟨_, rfl⟩).1
    ⟨⟨rfl, keyKept_plain (by decide) ⟨_, _, rfl, by decide⟩ (by decide), trivial,
        fun h => absurd h.1 (by decide)⟩,
      decode_of_not_mem (by decide),
      keyKept_plain (by decide) ⟨_, _, rfl, by decide⟩ (by decide), decode_of_not_mem (by decide),
      fun h => absurd h.1 (by decide)⟩

/-- The scalar behind the section is read in it. -/
theorem serverFirst_not_keeps : serverFirst.Valid ∧
    (∃ fields, serverFirst.value.tree = .object fields) ∧ ¬IniKeeps serverFirst := by
  refine ⟨serverFirst_valid, ⟨_, rfl⟩, fun h => ?_⟩
  have hflat : DocumentFlat serverFirst := ⟨rfl, rfl⟩
  have hkept := (readIni_document serverFirst_valid ⟨_, rfl⟩ hflat).mp h
  exact absurd hkept.2.1 (by decide)

end BlessStar.Convert.Proofs.IniRoundTrip
