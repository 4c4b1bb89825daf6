import BlessStar.Convert.ToIni
import BlessStar.Convert.ToToml
import BlessStar.Convert.ToYaml

/-!
# Formats

`bs_format_convert` of `format_convert.c` and `bs_format_detect` of
`format_detect.c`, which looks at the first bytes of a text and at the name of
its file.
-/

namespace BlessStar.Convert

open Lib.ByteString Lib.JsonText

inductive Format
  | json
  | yaml
  | toml
  | ini
  | xml
  | auto
  | count
  deriving DecidableEq

def ENOTSUP : Int := 95

def formatConvert (v1Json : Bytes) : Format → Converted
  | .json => internalToJson v1Json
  | .yaml => internalToYaml v1Json
  | .toml => internalToToml v1Json
  | .ini => internalToIni v1Json
  | .xml => { rc := -ENOTSUP }
  | .auto => { rc := -EINVAL }
  | .count => { rc := -EINVAL }

def isLetter (c : UInt8) : Bool := decide ((65 ≤ c ∧ c ≤ 90) ∨ (97 ≤ c ∧ c ≤ 122))

def isAlnum (c : UInt8) : Bool := isLetter c || decide (48 ≤ c ∧ c ≤ 57)

def isBlankByte (c : UInt8) : Bool := decide (c = ch ' ' ∨ c = 9)

def isYamlHeader (data : Bytes) : Bool := (ascii "---").isPrefixOf data

def isYamlContent (data : Bytes) : Bool :=
  match data.dropWhile isGapByte with
  | [] => false
  | line =>
      match (line.dropWhile fun c => isAlnum c || c = ch '_' || c = ch '-').dropWhile isBlankByte with
      | [] => false
      | c :: rest => decide (c = ch ':') && rest.head?.all isGapByte

/-- The loop to the next `=`, with the byte before it; it stops two bytes before the end. -/
def seekEquals : UInt8 → Bytes → UInt8 × Bytes
  | before, [] => (before, [])
  | before, c :: rest =>
      if 2 ≤ rest.length ∧ c ≠ ch '=' then seekEquals c rest else (before, c :: rest)

/-- What `is_toml_content` makes of the bytes behind a `[`. -/
def isTomlSection (header : Bytes) : Bool :=
  let lines := header.dropWhile (· ≠ LF)
  if lines.length ≤ 3 then false
  else
    let blanks := (lines.drop 1).takeWhile isBlankByte
    let found := seekEquals (blanks.getLast?.getD LF) ((lines.drop 1).dropWhile isBlankByte)
    match found.2 with
    | c :: next :: _ :: _ => decide (c = ch '=' ∧ found.1 = ch ' ' ∧ next = ch ' ')
    | _ => false

def isTomlContent (data : Bytes) : Bool :=
  if data.length < 3 then false
  else
    match data.dropWhile isGapByte with
    | [] => false
    | c :: rest =>
        if c = ch '[' then isTomlSection rest
        else
          let key := (c :: rest).dropWhile fun c => isAlnum c || c = ch '_' || c = ch '.'
          (key.dropWhile isBlankByte).head? = some (ch '=')

/-- `is_ini_content`; what it looks at behind a bracket does not change the answer. -/
def isIniContent (data : Bytes) : Bool :=
  if data.length < 3 then false
  else
    match data.dropWhile isGapByte with
    | [] => false
    | c :: _ => decide (c = ch '[' ∨ c = ch ';')

def isJsonContent (data : Bytes) : Bool :=
  let data := if [0xEF, 0xBB, 0xBF].isPrefixOf data then data.drop 3 else data
  match data.dropWhile isGapByte with
  | [] => false
  | c :: rest =>
      if c = ch '\x7b' then true
      else if c = ch '[' then !((rest.dropWhile isBlankByte).head?.any isLetter)
      else false

def extensionMap : List (String × Format) :=
  [(".json", .json), (".yaml", .yaml), (".yml", .yaml), (".toml", .toml), (".ini", .ini),
    (".conf", .ini), (".cfg", .ini)]

/-- `tolower`. -/
def lower (c : UInt8) : UInt8 := if 65 ≤ c ∧ c ≤ 90 then c + 32 else c

/-- What `strrchr` finds of a dot. -/
def fromLastDot (name : Bytes) : Option Bytes :=
  if ch '.' ∈ name then some (ch '.' :: (name.reverse.takeWhile (· ≠ ch '.')).reverse) else none

def detectByExtension (filenameHint : Option Bytes) : Format :=
  match filenameHint.bind fromLastDot with
  | none => .json
  | some dot =>
      ((extensionMap.find? fun e => (ascii e.1).map lower = dot.map lower).map Prod.snd).getD .json

structure FormatDetectResult where
  format : Format := .json
  confidence : Int := 30
  deriving DecidableEq

/-- The content-based part of `bs_format_detect`. -/
def detectByContent (data : Bytes) : FormatDetectResult :=
  if isJsonContent data then { format := .json, confidence := 90 }
  else if isYamlHeader data || isYamlContent data then { format := .yaml, confidence := 95 }
  else if isTomlContent data then { format := .toml, confidence := 85 }
  else if isIniContent data then { format := .ini, confidence := 85 }
  else {}

def formatDetect (data : Bytes) (filenameHint : Option Bytes) : FormatDetectResult :=
  if data = [] then
    if filenameHint.isNone then { confidence := 0 }
    else
      let format := detectByExtension filenameHint
      { format, confidence := if format = .json then 30 else 60 }
  else
    let result := detectByContent data
    if result.confidence < 70 ∧ filenameHint.isSome then
      let extFmt := detectByExtension filenameHint
      if extFmt ≠ result.format then { format := extFmt, confidence := 60 }
      else { result with confidence := (result.confidence + 80) / 2 }
    else result

structure IsIdentifier (key : Bytes) : Prop where
  head : ∃ c s, key = c :: s ∧ (isLetter c ∨ c = ch '_')
  all : ∀ c ∈ key, isAlnum c ∨ c = ch '_'

def memberList : Members → List (MemberKey × Json)
  | .last key value _ => [(key, value)]
  | .more key value _ rest => (key, value) :: memberList rest

def IsSimpleString : Json → Prop
  | .string body => ∀ c ∈ body, c ∉ ascii ":#\x7b[ '\"\n=;\\"
  | _ => False

/-- A first member that shows what a text is: a simple string, or an object that holds one. -/
def ShowsFormat : Json → Prop
  | .object members =>
      (∀ m ∈ memberList members, IsIdentifier m.1.body) ∧
        ∃ m ∈ memberList members, IsSimpleString m.2
  | value => IsSimpleString value

/-- An object whose keys are identifiers and whose first member shows what it is. -/
def IsRecognisable (doc : Document) : Prop :=
  doc.Valid ∧ ∃ members, doc.value = .object members ∧
    (∀ m ∈ memberList members, IsIdentifier m.1.body) ∧
      ∀ m ∈ (memberList members).head?, ShowsFormat m.2

/-- The conversion fails, or its output is taken for what it is. -/
def OwnOutputDetected (text : Bytes) (target : Format) : Prop :=
  (formatConvert text target).rc = 0 →
    (formatDetect (formatConvert text target).out none).format = target

theorem isAlnum_cases {c : UInt8} (h : isAlnum c) :
    (48 ≤ c.toNat ∧ c.toNat ≤ 57) ∨ (65 ≤ c.toNat ∧ c.toNat ≤ 90) ∨
      (97 ≤ c.toNat ∧ c.toNat ≤ 122) := by
  simp only [isAlnum, isLetter, Bool.or_eq_true, decide_eq_true_eq, UInt8.le_iff_toNat_le] at h
  simp at h
  omega

theorem not_mark {c : UInt8} (h : isAlnum c ∨ c = ch '_') :
    c ∉ ascii " \t\n\r\x7b[]=:-.;" ∧ c ≠ 0 ∧ c.toNat < 128 := by
  rcases h with halnum | rfl
  · have hcases := isAlnum_cases halnum
    have hmarks : ∀ m ∈ ascii " \t\n\r\x7b[]=:-.;", ¬((48 ≤ m.toNat ∧ m.toNat ≤ 57) ∨
        (65 ≤ m.toNat ∧ m.toNat ≤ 90) ∨ (97 ≤ m.toNat ∧ m.toNat ≤ 122)) := by decide
    refine ⟨fun hmem => hmarks c hmem hcases, ?_, by omega⟩
    rintro rfl
    exact absurd hcases (by decide)
  · decide

theorem dropWhile_key {p : UInt8 → Bool} {key : Bytes} (hkey : IsIdentifier key)
    (hp : ∀ c, isAlnum c ∨ c = ch '_' → p c = true) (hspace : p (ch ' ') = false) (rest : Bytes) :
    (key ++ ch ' ' :: rest).dropWhile p = ch ' ' :: rest := by
  rw [List.dropWhile_append_of_pos fun c hc => hp c (hkey.all c hc),
    List.dropWhile_cons_of_neg (by simp [hspace])]

theorem dropWhile_gap {key : Bytes} (hkey : IsIdentifier key) (rest : Bytes) :
    (key ++ rest).dropWhile isGapByte = key ++ rest := by
  obtain ⟨c, s, rfl, hc⟩ := hkey.head
  have hmark := (not_mark (hkey.all c List.mem_cons_self)).1
  rw [List.cons_append, List.dropWhile_cons_of_neg]
  simp only [isGapByte, decide_eq_true_eq]
  exact fun hgap => hmark ((by decide : ∀ c ∈ ascii " \t\n\r",
    c ∈ ascii " \t\n\r\x7b[]=:-.;") c hgap)

theorem IsIdentifier.exists_cons {key : Bytes} (hkey : IsIdentifier key) :
    ∃ c s, key = c :: s ∧ c ∉ ascii " \t\n\r\x7b[]=:-.;" ∧ c.toNat < 128 := by
  obtain ⟨c, s, rfl, -⟩ := hkey.head
  have hmark := not_mark (hkey.all c List.mem_cons_self)
  exact ⟨c, s, rfl, hmark.1, hmark.2.2⟩

theorem formatDetect_none {data : Bytes} (h : data ≠ []) :
    formatDetect data none = detectByContent data := by
  rw [formatDetect, if_neg h]
  exact if_neg fun hhint => absurd hhint.2 Bool.false_ne_true

theorem detect_assignment {key : Bytes} (hkey : IsIdentifier key) (rest : Bytes) :
    (formatDetect (key ++ ascii " = " ++ rest) none).format = .toml := by
  have htext : key ++ ascii " = " ++ rest = key ++ ch ' ' :: (ascii "= " ++ rest) := by
    rw [List.append_assoc]
    rfl
  have hgap := dropWhile_gap hkey (ch ' ' :: (ascii "= " ++ rest))
  obtain ⟨c, s, hcons, hmark, hsmall⟩ := hkey.exists_cons
  have hne : ∀ m ∈ ascii " \t\n\r\x7b[]=:-.;", c ≠ m := fun m hm heq => hmark (heq ▸ hm)
  have hjson : isJsonContent (key ++ ch ' ' :: (ascii "= " ++ rest)) = false := by
    have hbom : [0xEF, 0xBB, 0xBF].isPrefixOf (key ++ ch ' ' :: (ascii "= " ++ rest)) = false := by
      rw [hcons, List.cons_append, List.isPrefixOf_cons_cons]
      have hc : c ≠ 0xEF := by
        rintro rfl
        exact absurd hsmall (by decide)
      simp [Ne.symm hc]
    rw [isJsonContent, hbom, if_neg Bool.false_ne_true, hgap, hcons, List.cons_append]
    dsimp only
    rw [if_neg (hne _ (by decide)), if_neg (hne _ (by decide))]
  have hheader : isYamlHeader (key ++ ch ' ' :: (ascii "= " ++ rest)) = false := by
    rw [isYamlHeader, hcons, List.cons_append]
    have hdash : ascii "---" = ch '-' :: ascii "--" := rfl
    rw [hdash, List.isPrefixOf_cons_cons]
    simp [Ne.symm (hne (ch '-') (by decide))]
  have hyaml : isYamlContent (key ++ ch ' ' :: (ascii "= " ++ rest)) = false := by
    have hscan := @dropWhile_key (fun c => isAlnum c || c = ch '_' || c = ch '-') key hkey
      (fun c hc => by rcases hc with h | rfl <;> simp_all) rfl (ascii "= " ++ rest)
    rw [isYamlContent, hgap, hcons, List.cons_append]
    dsimp only
    rw [← List.cons_append, ← hcons, hscan]
    rfl
  have htoml : isTomlContent (key ++ ch ' ' :: (ascii "= " ++ rest)) = true := by
    have hscan := @dropWhile_key (fun c => isAlnum c || c = ch '_' || c = ch '.') key hkey
      (fun c hc => by rcases hc with h | rfl <;> simp_all) rfl (ascii "= " ++ rest)
    have hlong : ¬(key ++ ch ' ' :: (ascii "= " ++ rest)).length < 3 := by
      have htwo : (ascii "= ").length = 2 := rfl
      simp only [List.length_append, List.length_cons, htwo]
      omega
    rw [isTomlContent, if_neg hlong, hgap, hcons, List.cons_append]
    dsimp only
    rw [if_neg (hne _ (by decide)), ← List.cons_append, ← hcons, hscan]
    rfl
  rw [htext, formatDetect_none (by simp), detectByContent, hjson, hheader, hyaml, htoml]
  rfl

theorem seekEquals_key {key : Bytes} (hkey : ∀ c ∈ key, c ≠ ch '=') (before : UInt8)
    {a b : UInt8} (rest : Bytes) :
    seekEquals before (key ++ ch ' ' :: ch '=' :: a :: b :: rest) =
      (ch ' ', ch '=' :: a :: b :: rest) := by
  induction key generalizing before with
  | nil =>
      rw [List.nil_append, seekEquals, if_pos ⟨by simp, by decide⟩, seekEquals, if_neg (by simp)]
  | cons c key ih =>
      obtain ⟨hc, hrest⟩ := List.forall_mem_cons.mp hkey
      rw [List.cons_append, seekEquals, if_pos ⟨by simp; omega, hc⟩, ih hrest]

theorem detect_section {name key : Bytes} (hline : LF ∉ name) (hkey : IsIdentifier key) {a : UInt8} (rest : Bytes) :
    (formatDetect (ascii "[" ++ name ++ ascii "]\n" ++ ascii "  " ++ key ++ ascii " = " ++
      a :: rest) none).format ≠ .ini := by
  have htext : ascii "[" ++ name ++ ascii "]\n" ++ ascii "  " ++ key ++ ascii " = " ++ a :: rest =
      ch '[' :: (name ++ ch ']' :: LF :: ch ' ' :: ch ' ' :: (key ++ ch ' ' :: ch '=' :: ch ' ' ::
        a :: rest)) := by
    simp only [List.append_assoc]
    rfl
  set header := name ++ ch ']' :: LF :: ch ' ' :: ch ' ' :: (key ++ ch ' ' :: ch '=' :: ch ' ' ::
        a :: rest) with hheader
  have htoml : isTomlSection header = true := by
    have hlines : header.dropWhile (· ≠ LF) =
        LF :: ch ' ' :: ch ' ' :: (key ++ ch ' ' :: ch '=' :: ch ' ' :: a :: rest) := by
      rw [hheader, List.dropWhile_append_of_pos]
      · rfl
      · intro c hc
        exact decide_eq_true fun heq => hline (heq ▸ hc)
    have hblank : (key ++ ch ' ' :: ch '=' :: ch ' ' :: a :: rest).dropWhile isBlankByte =
        key ++ ch ' ' :: ch '=' :: ch ' ' :: a :: rest := by
      obtain ⟨c, s, rfl, hmark, -⟩ := hkey.exists_cons
      rw [List.cons_append, List.dropWhile_cons_of_neg]
      simp only [isBlankByte, decide_eq_true_eq]
      rintro (rfl | rfl)
      · exact hmark (by decide)
      · exact hmark (by decide)
    have hdropped : (ch ' ' :: ch ' ' :: (key ++ ch ' ' :: ch '=' :: ch ' ' :: a :: rest)).dropWhile
        isBlankByte = key ++ ch ' ' :: ch '=' :: ch ' ' :: a :: rest := by
      rw [List.dropWhile_cons_of_pos rfl, List.dropWhile_cons_of_pos rfl, hblank]
    have hequals : ∀ c ∈ key, c ≠ ch '=' := fun c hc heq =>
      (not_mark (hkey.all c hc)).1 (by rw [heq]; decide)
    rw [isTomlSection, hlines]
    dsimp only
    rw [if_neg (by simp; omega), List.drop_one, List.tail_cons, hdropped, seekEquals_key hequals]
    rfl
  have hyaml : isYamlContent (ch '[' :: header) = false := rfl
  have htomlContent : isTomlContent (ch '[' :: header) = true := by
    have hlong : ¬(ch '[' :: header).length < 3 := by
      rw [hheader]
      simp
      omega
    rw [isTomlContent, if_neg hlong]
    exact htoml
  rw [htext, formatDetect_none (List.cons_ne_nil _ _), detectByContent, hyaml, htomlContent]
  simp only [if_true]
  split_ifs <;> exact Format.noConfusion

theorem detect_brace (rest : Bytes) :
    (formatDetect (ch '\x7b' :: rest) none).format = .json := by
  have hjson : isJsonContent (ch '\x7b' :: rest) = true := rfl
  rw [formatDetect_none (List.cons_ne_nil _ _), detectByContent, hjson]
  rfl

theorem detect_dashes (rest : Bytes) :
    (formatDetect (ascii "---" ++ rest) none).format = .yaml := by
  have hjson : isJsonContent (ascii "---" ++ rest) = false := rfl
  have hheader : isYamlHeader (ascii "---" ++ rest) = true := rfl
  rw [formatDetect_none (List.append_ne_nil_of_left_ne_nil (by decide) _), detectByContent, hjson,
    hheader]
  rfl

theorem iniEmitValue_extends {p buf q b : Bytes} (h : iniEmitValue p buf = .ok (q, b)) :
    buf <+: b := by
  unfold iniEmitValue at h
  split at h
  · split at h <;> cases h <;> simp only [List.append_assoc, List.prefix_append]
  all_goals cases h <;> simp only [List.append_assoc, List.prefix_append]

theorem iniEmitSection_extends (fuel : Nat) {p buf q b : Bytes}
    (h : iniEmitSection fuel p buf = .ok (q, b)) : buf <+: b := by
  induction fuel generalizing p buf with
  | zero => cases h
  | succ fuel ih =>
      rw [iniEmitSection] at h
      split at h
      · cases h
        exact List.prefix_rfl
      · split at h
        · split at h
          · cases h
          · next hvalue =>
            have hwritten := iniEmitValue_extends hvalue
            simp only [List.append_assoc] at hwritten
            have hbefore := (List.prefix_append _ _).trans hwritten
            split at h
            · cases h
              exact hbefore.trans (List.prefix_append _ _)
            · exact hbefore.trans ((List.prefix_append _ _).trans (ih h))
        · cases h
      · cases h

theorem iniEmitMembers_extends (fuel : Nat) {p buf b : Bytes}
    (h : iniEmitMembers fuel p buf = .ok b) : buf <+: b := by
  induction fuel generalizing p buf with
  | zero => cases h
  | succ fuel ih =>
      rw [iniEmitMembers] at h
      split at h
      · cases h
        exact List.prefix_rfl
      · split at h
        · split at h
          · split at h
            · cases h
            · next hsection =>
              have hwritten := iniEmitSection_extends fuel hsection
              exact ((List.prefix_append _ _).trans hwritten).trans
                ((List.prefix_append _ _).trans (ih h))
          · split at h
            · cases h
            · next hvalue =>
              have hwritten := iniEmitValue_extends hvalue
              simp only [List.append_assoc] at hwritten
              have hbefore := (List.prefix_append _ _).trans hwritten
              split at h
              · cases h
                exact hbefore.trans (List.prefix_append _ _)
              · exact hbefore.trans ((List.prefix_append _ _).trans (ih h))
        · cases h
      · cases h

theorem tomlEmitString_extends (s buf : Bytes) : buf <+: tomlEmitString s buf := by
  unfold tomlEmitString
  split
  · rw [List.append_assoc]
    exact List.prefix_append _ _
  · exact List.prefix_append _ _

theorem tomlEmitScalar_extends {tok : Token} {buf b : Bytes} (h : tomlEmitScalar tok buf = .ok b) :
    buf <+: b := by
  unfold tomlEmitScalar at h
  split at h <;> cases h
  · exact tomlEmitString_extends _ _
  all_goals exact List.prefix_append _ _

theorem toml_extends (fuel : Nat) :
    (∀ {p buf q b}, tomlEmitValue fuel p buf = .ok (q, b) → buf <+: b) ∧
      (∀ {first p buf q b}, tomlEmitTable fuel first p buf = .ok (q, b) → buf <+: b) ∧
      ∀ {first p buf q b}, tomlEmitArray fuel first p buf = .ok (q, b) → buf <+: b := by
  have hscalar : ∀ {tok : Token} {buf p q b : Bytes},
      ((tomlEmitScalar tok buf).map fun buf => (p, buf)) = .ok (q, b) → buf <+: b := by
    intro tok buf p q b h
    cases hout : tomlEmitScalar tok buf with
    | error e => rw [hout] at h; cases h
    | ok b' =>
        rw [hout] at h
        cases h
        exact tomlEmitScalar_extends hout
  have hcomma : ∀ (first : Bool) (buf : Bytes), buf <+: if first then buf else buf ++ ascii ", " := by
    intro first buf
    cases first
    · exact List.prefix_append _ _
    · exact List.prefix_rfl
  induction fuel with
  | zero =>
      refine ⟨fun h => ?_, fun h => ?_, fun h => ?_⟩ <;> cases h
  | succ fuel ih =>
      obtain ⟨ihValue, ihTable, ihArray⟩ := ih
      refine ⟨fun h => ?_, fun h => ?_, fun h => ?_⟩
      · rw [tomlEmitValue] at h
        split at h
        · exact (List.prefix_append _ _).trans (ihTable h)
        · exact (List.prefix_append _ _).trans (ihArray h)
        · exact hscalar h
      · rw [tomlEmitTable] at h
        split at h
        · cases h
          exact List.prefix_append _ _
        · split at h
          · dsimp only at h
            split at h
            · cases h
            · next hvalue =>
              exact (((hcomma _ _).trans (tomlEmitString_extends _ _)).trans
                (List.prefix_append _ _)).trans ((ihValue hvalue).trans (ihTable h))
          · cases h
        · cases h
      · rw [tomlEmitArray] at h
        split at h
        · cases h
          exact List.prefix_append _ _
        · dsimp only at h
          split at h
          · cases h
          · next hitem =>
            split at hitem
            · exact (hcomma _ _).trans ((ihValue hitem).trans (ihArray h))
            · exact (hcomma _ _).trans ((hscalar hitem).trans (ihArray h))

theorem tomlEmitLines_extends (fuel : Nat) {p buf b : Bytes}
    (h : tomlEmitLines fuel p buf = .ok b) : buf <+: b := by
  induction fuel generalizing p buf with
  | zero => cases h
  | succ fuel ih =>
      rw [tomlEmitLines] at h
      split at h
      · cases h
        exact List.prefix_rfl
      · split at h
        · split at h
          · cases h
          · next hvalue =>
            have hwritten := ((tomlEmitString_extends _ _).trans (List.prefix_append _ _)).trans
              ((toml_extends fuel).1 hvalue)
            split at h
            · cases h
              exact hwritten.trans (List.prefix_append _ _)
            · exact hwritten.trans ((List.prefix_append _ _).trans (ih h))
        · cases h
      · cases h

theorem emitYamlString_extends (s buf : Bytes) : buf <+: emitYamlString s buf := by
  unfold emitYamlString
  dsimp only
  split
  · exact List.prefix_append _ _
  · rw [List.append_assoc]
    exact List.prefix_append _ _

theorem yaml_extends (fuel : Nat) :
    (∀ {p buf indent q b}, emitYamlValue fuel p buf indent = .ok (q, b) → buf <+: b) ∧
      (∀ {p buf indent q b}, emitYamlMapping fuel p buf indent = .ok (q, b) → buf <+: b) ∧
      ∀ {p buf indent q b}, emitYamlSequence fuel p buf indent = .ok (q, b) → buf <+: b := by
  have hindent : ∀ (indent : Nat) (buf : Bytes), buf <+: emitIndent indent buf := fun _ _ =>
    List.prefix_append _ _
  induction fuel with
  | zero =>
      refine ⟨fun h => ?_, fun h => ?_, fun h => ?_⟩ <;> cases h
  | succ fuel ih =>
      obtain ⟨ihValue, ihMapping, ihSequence⟩ := ih
      refine ⟨fun h => ?_, fun h => ?_, fun h => ?_⟩
      · rw [emitYamlValue] at h
        split at h
        · cases h
          exact emitYamlString_extends _ _
        · cases h
          exact List.prefix_append _ _
        · cases h
          exact List.prefix_append _ _
        · cases h
          exact List.prefix_append _ _
        · cases h
          exact List.prefix_append _ _
        · split at h
          · cases h
            exact List.prefix_append _ _
          · exact (List.prefix_append _ _).trans (ihMapping h)
        · split at h
          · cases h
            exact List.prefix_append _ _
          · exact ihSequence h
        · cases h
      · rw [emitYamlMapping] at h
        split at h
        · cases h
          exact List.prefix_rfl
        · split at h
          · split at h
            · cases h
            · next hvalue =>
              exact (((hindent _ _).trans (emitYamlString_extends _ _)).trans
                (List.prefix_append _ _)).trans ((ihValue hvalue).trans
                  ((List.prefix_append _ _).trans (ihMapping h)))
          · cases h
        · cases h
      · rw [emitYamlSequence] at h
        split at h
        · cases h
          exact List.prefix_rfl
        · split at h
          · cases h
          · next hvalue =>
            exact ((List.prefix_append _ _).trans ((hindent _ _).trans
              (List.prefix_append _ _))).trans ((ihValue hvalue).trans (ihSequence h))

namespace PrettyPrinter

theorem put_extends (cap : Nat) (c : UInt8) (p : PrettyPrinter) : p.buf <+: (p.put cap c).buf :=
  List.prefix_append _ _

theorem pad_extends (cap n : Nat) (p : PrettyPrinter) : p.buf <+: (p.pad cap n).buf := by
  induction n generalizing p with
  | zero => exact List.prefix_rfl
  | succ n ih =>
      rw [pad]
      split
      · exact ((put_extends _ _ _).trans (put_extends _ _ _)).trans (ih _)
      · exact List.prefix_rfl

theorem char_extends (cap : Nat) (c : UInt8) (p : PrettyPrinter) :
    p.buf <+: (p.char cap c).buf := by
  unfold char
  split
  · exact ((put_extends cap c p).trans (put_extends cap (ch '\n')
      { p.put cap c with indent := (p.put cap c).indent + 1 })).trans (pad_extends _ _ _)
  split
  · exact ((put_extends cap (ch '\n') { p with indent := p.indent - 1 }).trans
      (pad_extends _ _ _)).trans (put_extends _ _ _)
  split
  · exact ((put_extends _ _ _).trans (put_extends _ _ _)).trans (pad_extends _ _ _)
  split
  · exact (put_extends _ _ _).trans (put_extends _ _ _)
  split
  · exact List.prefix_rfl
  · exact put_extends _ _ _

theorem loop_extends (cap : Nat) (text : Bytes) (p : PrettyPrinter) :
    p.buf <+: (loop cap text p).buf := by
  induction text generalizing p with
  | nil => exact List.prefix_rfl
  | cons c text ih =>
      rw [loop]
      split
      · exact (char_extends cap c p).trans (ih _)
      · exact List.prefix_rfl

theorem loop_gap {cap : Nat} {ws : Bytes} (hws : IsGap ws) (text : Bytes) {p : PrettyPrinter}
    (hp : p.buf.length < cap) : loop cap (ws ++ text) p = loop cap text p := by
  induction ws with
  | nil => rfl
  | cons c ws ih =>
      obtain ⟨hc, hrest⟩ := List.forall_mem_cons.mp hws
      have hchar : p.char cap c = p := by
        have hgaps : ∀ c ∈ ascii " \t\n\r", (c = ch ' ' ∨ c = ch '\t' ∨ c = ch '\n' ∨
            c = ch '\r') ∧ c ∉ ascii "\x7b[\x7d],:" := by decide
        obtain ⟨hgap, hmark⟩ := hgaps c hc
        have hne : ∀ m ∈ ascii "\x7b[\x7d],:", c ≠ m := fun m hm heq => hmark (heq ▸ hm)
        simp only [char, hne _ (by decide : ch '\x7b' ∈ ascii "\x7b[\x7d],:"),
          hne _ (by decide : ch '[' ∈ ascii "\x7b[\x7d],:"),
          hne _ (by decide : ch '\x7d' ∈ ascii "\x7b[\x7d],:"),
          hne _ (by decide : ch ']' ∈ ascii "\x7b[\x7d],:"),
          hne _ (by decide : ch ',' ∈ ascii "\x7b[\x7d],:"),
          hne _ (by decide : ch ':' ∈ ascii "\x7b[\x7d],:"), or_self, if_false, if_pos hgap]
      rw [List.cons_append, loop, if_pos hp, hchar, ih hrest]

end PrettyPrinter

theorem json_extends {gap : Bytes} (hgap : IsGap gap) (rest : Bytes)
    (hrc : (internalToJson (gap ++ ch '\x7b' :: rest)).rc = 0) :
    [ch '\x7b'] <+: (internalToJson (gap ++ ch '\x7b' :: rest)).out := by
  rw [internalToJson, prettyPrintJson, if_neg (by simp)] at hrc ⊢
  dsimp only at hrc ⊢
  have hcap : ({} : PrettyPrinter).buf.length < (gap ++ ch '\x7b' :: rest).length * 2 + 256 :=
    Nat.succ_pos _
  split
  · next hfull =>
    rw [if_pos hfull] at hrc
    exact absurd hrc (by dsimp only; decide)
  · have hopen : [ch '\x7b'] <+: (PrettyPrinter.loop ((gap ++ ch '\x7b' :: rest).length * 2 + 256)
        (gap ++ ch '\x7b' :: rest) {}).buf := by
      rw [PrettyPrinter.loop_gap hgap _ hcap, PrettyPrinter.loop, if_pos hcap]
      refine List.IsPrefix.trans ?_ (PrettyPrinter.loop_extends _ _ _)
      rw [PrettyPrinter.char, if_pos (Or.inl rfl)]
      dsimp only
      refine List.IsPrefix.trans ?_ (PrettyPrinter.pad_extends _ _ _)
      exact List.prefix_append [ch '\x7b'] [ch '\n']
    exact hopen.trans (List.prefix_append _ _)

theorem tomlEmitLines_error {fuel : Nat} {p buf : Bytes} {e : Int}
    (h : tomlEmitLines fuel p buf = .error e) : e = -EINVAL := by
  induction fuel generalizing p buf with
  | zero =>
      cases h
      rfl
  | succ fuel ih =>
      rw [tomlEmitLines] at h
      repeat' split at h
      all_goals first
        | exact ih h
        | cases h
          try rfl

theorem iniEmitSection_error {fuel : Nat} {p buf : Bytes} {e : Int}
    (h : iniEmitSection fuel p buf = .error e) : e = -EINVAL := by
  induction fuel generalizing p buf with
  | zero =>
      cases h
      rfl
  | succ fuel ih =>
      rw [iniEmitSection] at h
      repeat' split at h
      all_goals first
        | exact ih h
        | cases h
          try rfl

theorem iniEmitMembers_error {fuel : Nat} {p buf : Bytes} {e : Int}
    (h : iniEmitMembers fuel p buf = .error e) : e = -EINVAL := by
  induction fuel generalizing p buf with
  | zero =>
      cases h
      rfl
  | succ fuel ih =>
      rw [iniEmitMembers] at h
      split at h
      · cases h
      · split at h
        · split at h
          · split at h
            · next hsection =>
              cases h
              exact iniEmitSection_error hsection
            · exact ih h
          · split at h
            · cases h
              rfl
            · split at h
              · cases h
              · exact ih h
        · cases h
          rfl
      · cases h
        rfl

theorem yaml_error (fuel : Nat) :
    (∀ {p buf indent e}, emitYamlValue fuel p buf indent = .error e → e = -EINVAL) ∧
      (∀ {p buf indent e}, emitYamlMapping fuel p buf indent = .error e → e = -EINVAL) ∧
      ∀ {p buf indent e}, emitYamlSequence fuel p buf indent = .error e → e = -EINVAL := by
  induction fuel with
  | zero =>
      refine ⟨fun h => ?_, fun h => ?_, fun h => ?_⟩ <;> cases h <;> rfl
  | succ fuel ih =>
      obtain ⟨ihValue, ihMapping, ihSequence⟩ := ih
      refine ⟨fun h => ?_, fun h => ?_, fun h => ?_⟩
      · rw [emitYamlValue] at h
        split at h
        all_goals try cases h
        · split at h
          · cases h
          · exact ihMapping h
        · split at h
          · cases h
          · exact ihSequence h
        · rfl
      · rw [emitYamlMapping] at h
        split at h
        · cases h
        · split at h
          · split at h
            · next hvalue =>
              cases h
              exact ihValue hvalue
            · exact ihMapping h
          · cases h
            rfl
        · cases h
          rfl
      · rw [emitYamlSequence] at h
        split at h
        · cases h
        · split at h
          · next hvalue =>
            cases h
            exact ihValue hvalue
          · exact ihSequence h

theorem memberList_head (members : Members) (hv : members.Valid) :
    ∃ key value, (memberList members).head? = some (key, value) ∧ key.Valid ∧ value.Valid ∧
      ∀ r, ∃ s, members.text ++ r = key.text ++ (value.text ++ s) := by
  cases members with
  | last key value after =>
      refine ⟨key, value, rfl, hv.1, hv.2.1, fun r => ⟨after ++ r, ?_⟩⟩
      rw [Members.text, List.append_assoc, List.append_assoc]
  | more key value after rest =>
      refine ⟨key, value, rfl, hv.1, hv.2.1, fun r => ⟨after ++ ch ',' :: (rest.text ++ r), ?_⟩⟩
      rw [Members.text, List.append_assoc, List.append_assoc, List.append_assoc, List.cons_append]

theorem tomlEmitString_identifier {key : Bytes} (hkey : IsIdentifier key) (buf : Bytes) :
    tomlEmitString key buf = buf ++ key := by
  rw [tomlEmitString, if_neg]
  simp only [List.any_eq_true, decide_eq_true_eq, not_exists, not_and]
  intro c hc
  have halnum := hkey.all c hc
  have hnone : ∀ m ∈ ascii "\"\n\\", ¬(isAlnum m ∨ m = ch '_') := by decide
  rintro (rfl | rfl | rfl)
  · exact hnone _ (by decide) halnum
  · exact hnone _ (by decide) halnum
  · exact hnone _ (by decide) halnum

theorem toml_begins {gap : Bytes} (hgap : IsGap gap) {key : MemberKey} (hkey : key.Valid)
    (hname : IsIdentifier key.body) {text rest : Bytes}
    (htext : text = gap ++ ch '\x7b' :: (key.text ++ rest))
    (hrc : (internalToToml text).rc = 0) :
    key.body ++ ascii " = " <+: (internalToToml text).out := by
  obtain ⟨p, hstring, hcolon⟩ := nextToken_key hkey rest
  change nextTok (key.text ++ rest) = _ at hstring
  change nextTok p = _ at hcolon
  have hopen : nextTok text = (.lbrace, key.text ++ rest) := by
    rw [htext, nextTok, nextToken_gap hgap]
    rfl
  rw [internalToToml, hopen] at hrc ⊢
  dsimp only at hrc ⊢
  cases hlines : tomlEmitLines (text.length + 1) (key.text ++ rest) [] with
  | error e =>
      rw [hlines] at hrc
      rw [tomlEmitLines_error hlines] at hrc
      exact absurd hrc (by decide)
  | ok buf =>
      dsimp only
      rw [tomlEmitLines, hstring] at hlines
      dsimp only at hlines
      rw [hcolon] at hlines
      dsimp only at hlines
      rw [tomlEmitString_identifier hname, List.nil_append] at hlines
      have hline : key.body ++ ascii " = " <+: buf := by
        split at hlines
        · cases hlines
        · next hvalue =>
          have hwritten := (toml_extends _).1 hvalue
          split at hlines
          · cases hlines
            exact hwritten.trans (List.prefix_append _ _)
          · exact hwritten.trans ((List.prefix_append _ _).trans (tomlEmitLines_extends _ hlines))
      rw [List.append_assoc]
      exact hline.trans (List.prefix_append _ _)

theorem yaml_begins {text : Bytes} (hrc : (internalToYaml text).rc = 0) :
    ascii "---" <+: (internalToYaml text).out := by
  rw [internalToYaml] at hrc ⊢
  cases hvalue : emitYamlValue (text.length + 1) text (ascii "---\n") 1 with
  | error e =>
      rw [hvalue, (yaml_error _).1 hvalue] at hrc
      exact absurd hrc (by decide)
  | ok r =>
      have hwritten := (yaml_extends _).1 hvalue
      dsimp only
      rw [List.append_assoc]
      exact ((by decide : ascii "---" <+: ascii "---\n").trans hwritten).trans
        (List.prefix_append _ _)

theorem ini_begins_string {gap : Bytes} (hgap : IsGap gap) {key : MemberKey} (hkey : key.Valid)
    {body rest text : Bytes} (hbody : IsBody body)
    (htext : text = gap ++ ch '\x7b' :: (key.text ++ ((Json.string body).text ++ rest)))
    (hrc : (internalToIni text).rc = 0) :
    key.body ++ ascii " = " <+: (internalToIni text).out := by
  obtain ⟨p, hstring, hcolon⟩ := nextToken_key hkey ((Json.string body).text ++ rest)
  change nextItok _ = _ at hstring
  change nextItok p = _ at hcolon
  have hopen : nextItok text = (.lbrace, key.text ++ ((Json.string body).text ++ rest)) := by
    rw [htext, nextItok, nextToken_gap hgap]
    rfl
  have hpeek : nextItok (key.afterColon ++ ((Json.string body).text ++ rest)) =
      (.string body, rest) := by
    rw [nextItok, nextToken_gap hkey.afterColon, Json.text, List.cons_append, List.append_assoc]
    exact nextToken_string hbody rest
  rw [internalToIni, hopen] at hrc ⊢
  dsimp only at hrc ⊢
  cases hmembers : iniEmitMembers (text.length + 1) (key.text ++ ((Json.string body).text ++ rest))
      [] with
  | error e =>
      rw [hmembers, iniEmitMembers_error hmembers] at hrc
      exact absurd hrc (by decide)
  | ok buf =>
      dsimp only
      rw [iniEmitMembers, hstring] at hmembers
      dsimp only at hmembers
      rw [hcolon] at hmembers
      dsimp only at hmembers
      rw [hpeek] at hmembers
      dsimp only at hmembers
      have hline : key.body ++ ascii " = " <+: buf := by
        split at hmembers
        · cases hmembers
        · next hvalue =>
          have hwritten := iniEmitValue_extends hvalue
          rw [List.nil_append] at hwritten
          split at hmembers
          · cases hmembers
            exact hwritten.trans (List.prefix_append _ _)
          · exact hwritten.trans ((List.prefix_append _ _).trans
              (iniEmitMembers_extends _ hmembers))
      rw [List.append_assoc]
      exact hline.trans (List.prefix_append _ _)

theorem ini_begins_section {gap : Bytes} (hgap : IsGap gap) {key inner : MemberKey}
    (hkey : key.Valid) (hinner : inner.Valid) {rest text : Bytes}
    (htext : text = gap ++ ch '\x7b' :: (key.text ++ ch '\x7b' :: (inner.text ++ rest)))
    (hrc : (internalToIni text).rc = 0) :
    ∃ a s, (internalToIni text).out =
      sectionHeader key.body ++ ascii "  " ++ inner.body ++ ascii " = " ++ a :: s := by
  obtain ⟨p, hstring, hcolon⟩ := nextToken_key hkey (ch '\x7b' :: (inner.text ++ rest))
  obtain ⟨p', hstring', hcolon'⟩ := nextToken_key hinner rest
  change nextItok _ = _ at hstring hstring'
  change nextItok p = _ at hcolon
  change nextItok p' = _ at hcolon'
  have hopen : nextItok text =
      (.lbrace, key.text ++ ch '\x7b' :: (inner.text ++ rest)) := by
    rw [htext, nextItok, nextToken_gap hgap]
    rfl
  have hpeek : nextItok (key.afterColon ++ ch '\x7b' :: (inner.text ++ rest)) =
      (.lbrace, inner.text ++ rest) := by
    rw [nextItok, nextToken_gap hkey.afterColon]
    rfl
  obtain ⟨fuel, hfuel⟩ : ∃ fuel, text.length = fuel + 1 :=
    Nat.exists_eq_add_one.mpr (by rw [htext, List.length_append, List.length_cons]; omega)
  rw [internalToIni, hopen] at hrc ⊢
  dsimp only at hrc ⊢
  cases hmembers : iniEmitMembers (text.length + 1)
      (key.text ++ ch '\x7b' :: (inner.text ++ rest)) [] with
  | error e =>
      rw [hmembers, iniEmitMembers_error hmembers] at hrc
      exact absurd hrc (by decide)
  | ok buf =>
      dsimp only
      have hlines : sectionHeader key.body ++ ascii "  " ++ inner.body ++ ascii " = " <+: buf := by
        rw [iniEmitMembers, hstring] at hmembers
        dsimp only at hmembers
        rw [hcolon] at hmembers
        dsimp only at hmembers
        rw [hpeek, hfuel] at hmembers
        dsimp only at hmembers
        rw [iniEmitSection, hstring'] at hmembers
        dsimp only at hmembers
        rw [hcolon', List.nil_append] at hmembers
        dsimp only at hmembers
        split at hmembers
        · cases hmembers
        · next hsection =>
          have hend := (List.prefix_append _ _).trans (iniEmitMembers_extends _ hmembers)
          split at hsection
          · cases hsection
          · next hvalue =>
            have hwritten := iniEmitValue_extends hvalue
            split at hsection
            · cases hsection
              exact (hwritten.trans (List.prefix_append _ _)).trans hend
            · exact (hwritten.trans ((List.prefix_append _ _).trans
                (iniEmitSection_extends _ hsection))).trans hend
      obtain ⟨t, rfl⟩ := hlines
      cases t with
      | nil => exact ⟨_, _, by rw [List.append_nil, List.append_assoc]; rfl⟩
      | cons a t => exact ⟨a, t ++ (ascii "\n" ++ [0]), by simp⟩

theorem lineFeed_not_mem_section {key : Bytes} (hkey : IsIdentifier key) :
    LF ∉ cstr (sectionName key) := by
  intro h
  have hmem : LF ∈ sectionName key := (List.takeWhile_sublist _).subset h
  have hkeyMem : LF ∈ key := by
    unfold sectionName at hmem
    split at hmem
    · exact hmem
    · exact List.mem_of_mem_take hmem
  exact (not_mark (hkey.all LF hkeyMem)).1 (by decide)

theorem detect_ini {gap : Bytes} (hgap : IsGap gap) {key : MemberKey} (hkey : key.Valid)
    (hname : IsIdentifier key.body) {value : Json} (hvalue : value.Valid)
    (hshows : ShowsFormat value) {rest text : Bytes}
    (htext : text = gap ++ ch '\x7b' :: (key.text ++ (value.text ++ rest)))
    (hrc : (internalToIni text).rc = 0) :
    (formatDetect (internalToIni text).out none).format ≠ .ini := by
  cases value with
  | string body =>
      obtain ⟨s, hs⟩ := ini_begins_string hgap hkey hvalue htext hrc
      rw [← hs, detect_assignment hname]
      exact Format.noConfusion
  | object members =>
      obtain ⟨inner, v, hhead, hinner, -, hbegin⟩ := memberList_head members hvalue
      obtain ⟨s, hs⟩ := hbegin (ch '\x7d' :: rest)
      have hsplit : text = gap ++ ch '\x7b' :: (key.text ++ ch '\x7b' ::
          (inner.text ++ (v.text ++ s))) := by
        rw [htext, ← hs, Json.text]
        simp
      obtain ⟨a, t, hout⟩ := ini_begins_section hgap hkey hinner hsplit hrc
      have hid : IsIdentifier inner.body := hshows.1 (inner, v) (List.mem_of_head? hhead)
      rw [hout, sectionHeader]
      exact detect_section (lineFeed_not_mem_section hname) hid t
  | number text => exact hshows.elim
  | word w => exact hshows.elim
  | emptyArray ws => exact hshows.elim
  | array items => exact hshows.elim
  | emptyObject ws => exact hshows.elim

/-- **Detection of own output**, for a text with or without a NUL behind it: every target but
INI is recognised, and INI never is. -/
theorem ownOutputDetected_iff {doc : Document} (hdoc : IsRecognisable doc) (terminated : Bool)
    {target : Format} (htarget : target ∈ [Format.json, .yaml, .toml, .ini]) :
    OwnOutputDetected (doc.text ++ if terminated then [0] else []) target ↔
      target ≠ .ini ∨
        (formatConvert (doc.text ++ if terminated then [0] else []) .ini).rc ≠ 0 := by
  obtain ⟨hvalid, members, hobject, hkeys, hfirst⟩ := hdoc
  have hmembers : members.Valid := by
    have hvalue := hvalid.value
    rwa [hobject] at hvalue
  obtain ⟨key, value, hhead, hkey, hvalue, hbegin⟩ := memberList_head members hmembers
  obtain ⟨rest, hrest⟩ := hbegin
    (ch '\x7d' :: (doc.after ++ if terminated then [0] else []))
  have hname : IsIdentifier key.body := hkeys (key, value) (List.mem_of_head? hhead)
  have htext : (doc.text ++ if terminated then [0] else []) =
      doc.before ++ ch '\x7b' :: (key.text ++ (value.text ++ rest)) := by
    rw [← hrest, Document.text, hobject, Json.text]
    simp
  set text := doc.text ++ if terminated then [0] else []
  simp only [List.mem_cons, List.not_mem_nil, or_false] at htarget
  rcases htarget with rfl | rfl | rfl | rfl
  · refine iff_of_true (fun hrc => ?_) (Or.inl Format.noConfusion)
    rw [formatConvert, htext] at hrc ⊢
    obtain ⟨s, hs⟩ := json_extends hvalid.before _ hrc
    rw [← hs]
    exact detect_brace s
  · refine iff_of_true (fun hrc => ?_) (Or.inl Format.noConfusion)
    obtain ⟨s, hs⟩ := yaml_begins hrc
    rw [formatConvert, ← hs]
    exact detect_dashes s
  · refine iff_of_true (fun hrc => ?_) (Or.inl Format.noConfusion)
    obtain ⟨s, hs⟩ := toml_begins hvalid.before hkey hname htext hrc
    rw [formatConvert, ← hs]
    exact detect_assignment hname s
  · constructor
    · intro h
      refine Or.inr fun hrc => ?_
      exact detect_ini hvalid.before hkey hname hvalue (hfirst _ hhead) htext hrc (h hrc)
    · rintro (hne | hrc)
      · exact absurd rfl hne
      · exact fun hok => absurd hok hrc

/-- `{"a":"b"}`. -/
def pairDocument : Document :=
  ⟨[], .object (.last ⟨[], ascii "a", [], []⟩ (.string (ascii "b")) []), []⟩

theorem pairDocument_recognisable : IsRecognisable pairDocument := by
  have hplain : ∀ name ∈ ["a", "b"], Lib.JsonText.IsPlain (ascii name) := by decide
  refine ⟨⟨.nil, ⟨⟨.nil, (hplain "a" (by decide)).isBody, .nil, .nil⟩,
    (hplain "b" (by decide)).isBody, .nil⟩, .nil⟩, _, rfl, ?_, ?_⟩
  · intro m hm
    obtain rfl := List.mem_singleton.mp hm
    exact ⟨⟨_, _, rfl, by decide⟩, by decide⟩
  · intro m hm
    obtain rfl := Option.mem_some_iff.mp hm
    exact (by decide : ∀ c ∈ ascii "b", c ∉ ascii ":#\x7b[ '\"\n=;\\")

theorem ownOutputDetected_iff_pair :
    OwnOutputDetected (pairDocument.text ++ if true then [0] else []) .toml :=
  (ownOutputDetected_iff pairDocument_recognisable true (by decide)).mpr
    (Or.inl Format.noConfusion)

/-- The INI of `{"a":"b"}` is `a = b`, which is taken for TOML. -/
theorem ini_taken_for_toml :
    IsRecognisable pairDocument ∧ (formatConvert pairDocument.text .ini).rc = 0 ∧
      (formatDetect (formatConvert pairDocument.text .ini).out none).format = .toml :=
  ⟨pairDocument_recognisable, by decide, by decide⟩

end BlessStar.Convert
