import BlessStar.Lib.FixedBuffer
import BlessStar.Sdk.ConfigDeclare
import BlessStar.Sdk.IndexFingerprint

/-!
# The agent index of the declared fields

`bs_agent_index_export_c` of `config_declare.cpp`: two texts made of all declared
fields in buffers of 65536 bytes, and a third one without fields.  Which files
`fopen` can open for writing is a parameter; what is opened is written in full.
-/

namespace BlessStar.Sdk

open Lib.ByteString Lib.FixedBuffer Lib.JsonText
open ConfigDeclareState (textAt)

/-- `sizeof(sem_buf)` and `sizeof(dk_buf)`. -/
def indexBufferSize : Nat := 65536

def indexTypeName (t : Int) : Bytes :=
  if t = 0 then ascii "int32"
  else if t = 1 then ascii "int64"
  else if t = 3 then ascii "double"
  else if t = 4 then ascii "bool"
  else ascii "string"

/-- What `snprintf` writes one after another in a loop, `separator` between the turns. -/
def loopParts {α : Type} (separator : Bytes) (parts : α → List Bytes) : Bool → List α → List Bytes
  | _, [] => []
  | first, a :: as =>
      (if first then [] else [separator]) ++ parts a ++ loopParts separator parts false as

def indexHeader (list : String) (ts business : Bytes) : Bytes :=
  ascii "\x7b\n  \"version\":\"1.0\",\n  \"generated_at\":\"" ++ ts ++
    ascii "\",\n  \"business_name\":\"" ++ business ++ ascii "\",\n  \"" ++ ascii list ++
    ascii "\":[\n"

def indexEnd : Bytes := ascii "\n  ]\n\x7d\n"

def keyDomain (key : Bytes) : Bytes :=
  let first := key.takeWhile (· ≠ ch '.')
  match key.dropWhile (· ≠ ch '.') with
  | [] => key
  | dot :: rest => first ++ dot :: rest.takeWhile (· ≠ ch '.')

/-- `groups[domain].push_back(f)`, the map being in the order of its keys. -/
def pushGroup (domain : Bytes) (f : FieldDecl) :
    List (Bytes × List FieldDecl) → List (Bytes × List FieldDecl)
  | [] => [(domain, [f])]
  | g :: gs =>
      if g.1 = domain then (g.1, g.2 ++ [f]) :: gs
      else if domain < g.1 then (domain, [f]) :: g :: gs
      else g :: pushGroup domain f gs

section Strings

variable (mem : Address → Bytes)

def semanticsEntry (f : FieldDecl) : Bytes :=
  ascii "    \x7b\"key\":\"" ++ textAt mem f.key ++ ascii "\",\"type\":\"" ++
    indexTypeName f.type ++ ascii "\",\"description\":\"" ++ textAt mem f.description ++
    ascii "\"\x7d"

/-- The parts of `field_semantics.json`. -/
def semanticsParts (ts business : Bytes) (fields : List FieldDecl) : List Bytes :=
  indexHeader "fields" ts business ::
    loopParts (ascii ",\n") (fun f => [semanticsEntry mem f]) true fields

def groupFields (fields : List FieldDecl) : List (Bytes × List FieldDecl) :=
  fields.foldl (fun groups f => pushGroup (keyDomain (textAt mem f.key)) f groups) []

def domainEntry (f : FieldDecl) : Bytes :=
  ascii "\n      \x7b\"key\":\"" ++ textAt mem f.key ++ ascii "\",\"type\":\"" ++
    indexTypeName f.type ++ ascii "\"\x7d"

def domainParts (g : Bytes × List FieldDecl) : List Bytes :=
  [ascii "\n    \x7b\"domain\":\"" ++ g.1 ++ ascii "\",\"fields\":["] ++
    loopParts (ascii ",") (fun f => [domainEntry mem f]) true g.2 ++ [ascii "\n    ]\x7d"]

/-- The parts of `domain_knowledge.json`. -/
def knowledgeParts (ts business : Bytes) (fields : List FieldDecl) : List Bytes :=
  indexHeader "domains" ts business ::
    loopParts (ascii ",") (domainParts mem) true (groupFields mem fields)

end Strings

def indexBuffer (parts : List Bytes) : PrintBuffer :=
  PrintBuffer.printAll indexBufferSize {} (parts ++ [indexEnd])

/-- What `constraint_knowledge.json` gets. -/
def constraintText (ts business : Bytes) : Bytes :=
  (ascii "\x7b\n  \"version\":\"1.0\",\n  \"generated_at\":\"" ++ ts ++
    ascii "\",\n  \"business_name\":\"" ++ business ++ ascii "\",\n  \"gates\":[]\n\x7d\n").take 1023

/-- What a call returns, the texts it writes to the files, and whether a write left a buffer. -/
structure IndexExport where
  rc : Int := -1
  semantics : Option Bytes := none
  knowledge : Option Bytes := none
  constraints : Option Bytes := none
  overrun : Bool := false

def agentIndexExportC (env : IndexEnv) (mem : Address → Bytes) (order : MapOrder FieldDecl)
    (s : ConfigDeclareState) (ts : Option Tm) (outputDir : Bytes) (businessName : Option Bytes) :
    IndexExport :=
  let fields := (order.entries s.fields).map Prod.snd
  let stamp := isoTimestamp ts
  let business := businessName.getD (ascii "default")
  let path file := (outputDir ++ ascii "/" ++ ascii file).take 1023
  if fields.isEmpty then {}
  else
    let sem := indexBuffer (semanticsParts mem stamp business fields)
    if env.opens (path "field_semantics.json") then
      let semantics := some (sem.text indexBufferSize)
      let dk := indexBuffer (knowledgeParts mem stamp business fields)
      let overrun := sem.overrun || dk.overrun
      if env.opens (path "domain_knowledge.json") then
        let knowledge := some (dk.text indexBufferSize)
        if env.opens (path "constraint_knowledge.json") then
          { rc := 0, semantics, knowledge, overrun
            constraints := some (cstr (constraintText stamp business)) }
        else { semantics, knowledge, overrun }
      else { semantics, overrun }
    else { overrun := sem.overrun }

section Strings

variable (mem : Address → Bytes)

def indexTree (list : String) (ts business : Bytes) (items : List Tree) : Tree :=
  .object (Fields.ofList [(ascii "version", .string (ascii "1.0")),
    (ascii "generated_at", .string ts), (ascii "business_name", .string business),
    (ascii list, .array (Trees.ofList items))])

def semanticsFieldTree (f : FieldDecl) : Tree :=
  .object (Fields.ofList [(ascii "key", .string (textAt mem f.key)),
    (ascii "type", .string (indexTypeName f.type)),
    (ascii "description", .string (textAt mem f.description))])

def domainFieldTree (f : FieldDecl) : Tree :=
  .object (Fields.ofList [(ascii "key", .string (textAt mem f.key)),
    (ascii "type", .string (indexTypeName f.type))])

def domainTree (g : Bytes × List FieldDecl) : Tree :=
  .object (Fields.ofList [(ascii "domain", .string g.1),
    (ascii "fields", .array (Trees.ofList (g.2.map (domainFieldTree mem))))])

/-- No write leaves a buffer, and the texts that are written list the fields, each once. -/
structure ExportSays (ts business : Bytes) (fields : List FieldDecl) (e : IndexExport) : Prop where
  inside : e.overrun = false
  semantics : ∀ text ∈ e.semantics,
    Spells text (indexTree "fields" ts business (fields.map (semanticsFieldTree mem)))
  knowledge : ∀ text ∈ e.knowledge,
    Spells text
      (indexTree "domains" ts business ((groupFields mem fields).map (domainTree mem))) ∧
      ((groupFields mem fields).flatMap Prod.snd).Perm fields

end Strings

/-- All strings can be written as they are, and at most a line end is cut off a text. -/
structure IndexFits (mem : Address → Bytes) (ts business : Bytes) (fields : List FieldDecl) :
    Prop where
  plain : Lib.JsonText.IsPlain business
  strings : ∀ f ∈ fields, Lib.JsonText.IsPlain (textAt mem f.key) ∧
    Lib.JsonText.IsPlain (textAt mem f.description)
  semantics : (semanticsParts mem ts business fields ++ [indexEnd]).flatten.length ≤ indexBufferSize
  knowledge : (knowledgeParts mem ts business fields ++ [indexEnd]).flatten.length ≤ indexBufferSize

theorem flatten_loopParts {α : Type} (separator : Bytes) (parts : α → List Bytes) (a : α)
    (as : List α) :
    (loopParts separator parts true (a :: as)).flatten =
      (parts a).flatten ++ as.flatMap fun a => separator ++ (parts a).flatten := by
  have hrest : ∀ as, (loopParts separator parts false as).flatten =
      as.flatMap fun a => separator ++ (parts a).flatten := by
    intro as
    induction as with
    | nil => rfl
    | cons a as ih => simp [loopParts, ih]
  simp [loopParts, hrest]

def indexJson (list : String) (ts business : Bytes) (items : Items) : Json :=
  .object (spacedMembers (ascii "\n  ") (ascii "\n") (ascii "version", .string (ascii "1.0"))
    [(ascii "generated_at", .string ts), (ascii "business_name", .string business),
      (ascii list, .array items)])

theorem text_indexJson (list : String) (ts business : Bytes) {items : Items} {text : Bytes}
    (hitems : items.text = ascii "\n" ++ text ++ ascii "\n  ") :
    indexHeader list ts business ++ text ++ indexEnd =
      (indexJson list ts business items).text ++ ascii "\n" := by
  rw [indexJson, Json.text, text_spacedMembers, indexHeader, indexEnd]
  simp only [List.map_cons, List.map_nil, compactMember, Json.text, List.intercalate_cons_cons,
    List.intercalate_singleton, hitems, List.append_assoc, List.cons_append, List.nil_append]
  rfl

theorem spaced_indexJson (list : String) (ts business : Bytes) {items : Items}
    (hitems : items.Spaced) : (indexJson list ts business items).Spaced := by
  apply spaced_spacedMembers (by decide) (by decide)
  simp only [List.forall_mem_cons]
  exact ⟨trivial, trivial, trivial, hitems, List.forall_mem_nil _⟩

theorem raw_indexJson (list : String) (ts business : Bytes) {items : Items} {trees : List Tree}
    (hitems : items.raws = Trees.ofList trees) :
    (indexJson list ts business items).raw = indexTree list ts business trees := by
  rw [indexJson, Json.raw, raws_spacedMembers, indexTree]
  simp only [List.map_cons, List.map_nil, Json.raw, hitems]

theorem printsIndex_iff (list : String) (ts business : Bytes) {items : Items}
    (hspaced : items.Spaced) {trees : List Tree} (htrees : items.raws = Trees.ofList trees)
    {parts : List Bytes} (hink : ∀ x ∈ parts, 0 < weigh ink x)
    (htext : (parts ++ [indexEnd]).flatten =
      (indexJson list ts business items).text ++ ascii "\n") :
    ((indexBuffer parts).overrun = false ∧
        Spells ((indexBuffer parts).text indexBufferSize) (indexTree list ts business trees)) ↔
      (parts ++ [indexEnd]).flatten.length ≤ indexBufferSize ∧
        (indexTree list ts business trees).Plain := by
  have hbody : ∃ body, (indexJson list ts business items).text = body ++ ascii "\x7d" :=
    ⟨_, (List.cons_append ..).symm⟩
  obtain ⟨body, hbody⟩ := hbody
  rw [htext, ← raw_indexJson list ts business htrees, indexBuffer]
  apply printsJson_iff (by decide) (by decide) (spaced_indexJson list ts business hspaced) hbody
    (by decide) _ htext
  intro x hx
  rcases List.mem_append.mp hx with hpart | hend
  · exact hink x hpart
  · obtain rfl := List.mem_singleton.mp hend
    decide

section Strings

variable (mem : Address → Bytes)

def semanticsFieldJson (f : FieldDecl) : Json :=
  compactObject [(ascii "key", .string (textAt mem f.key)),
    (ascii "type", .string (indexTypeName f.type)),
    (ascii "description", .string (textAt mem f.description))]

def domainFieldJson (f : FieldDecl) : Json :=
  compactObject [(ascii "key", .string (textAt mem f.key)),
    (ascii "type", .string (indexTypeName f.type))]

def domainJson (g : Bytes × List FieldDecl) : Json :=
  compactObject [(ascii "domain", .string g.1),
    (ascii "fields", spacedArray (ascii "\n      ") (ascii "\n      ") (ascii "\n    ")
      (g.2.map (domainFieldJson mem)))]

theorem text_semanticsFieldJson (f : FieldDecl) :
    semanticsEntry mem f = ascii "    " ++ (semanticsFieldJson mem f).text := by
  rw [semanticsFieldJson, text_compactObject, semanticsEntry]
  simp only [List.map_cons, List.map_nil, compactMember, Json.text, List.intercalate_cons_cons,
    List.intercalate_singleton, List.append_assoc, List.cons_append, List.nil_append]
  rfl

theorem text_domainFieldJson (f : FieldDecl) :
    domainEntry mem f = ascii "\n      " ++ (domainFieldJson mem f).text := by
  rw [domainFieldJson, text_compactObject, domainEntry]
  simp only [List.map_cons, List.map_nil, compactMember, Json.text, List.intercalate_cons_cons,
    List.intercalate_singleton, List.append_assoc, List.cons_append, List.nil_append]
  rfl

theorem text_domainFields (fs : List FieldDecl) :
    ascii "[" ++ (loopParts (ascii ",") (fun f => [domainEntry mem f]) true fs).flatten ++
        ascii "\n    ]" =
      (spacedArray (ascii "\n      ") (ascii "\n      ") (ascii "\n    ")
        (fs.map (domainFieldJson mem))).text := by
  cases fs with
  | nil => rfl
  | cons f fs =>
      rw [flatten_loopParts, List.map_cons, spacedArray, Json.text, text_spacedItems]
      simp only [List.flatten_singleton, text_domainFieldJson, List.flatMap_map,
        List.append_assoc]
      rfl

theorem text_domainJson (g : Bytes × List FieldDecl) :
    (domainParts mem g).flatten = ascii "\n    " ++ (domainJson mem g).text := by
  rw [domainJson, text_compactObject, domainParts]
  simp only [List.map_cons, List.map_nil, compactMember, ← text_domainFields,
    List.intercalate_cons_cons, List.intercalate_singleton, List.append_assoc, List.cons_append,
    List.nil_append, Json.text, List.flatten_append, List.flatten_cons, List.flatten_nil]
  rfl

theorem spaced_domainJson (g : Bytes × List FieldDecl) : (domainJson mem g).Spaced := by
  apply spaced_compactObject
  simp only [List.forall_mem_cons]
  refine ⟨trivial, ?_, List.forall_mem_nil _⟩
  apply spaced_spacedArray (by decide) (by decide) (by decide)
  intro v hv
  obtain ⟨f, -, rfl⟩ := List.mem_map.mp hv
  apply spaced_compactObject
  simp only [List.forall_mem_cons]
  exact ⟨trivial, trivial, List.forall_mem_nil _⟩

theorem spaced_semanticsFieldJson (f : FieldDecl) : (semanticsFieldJson mem f).Spaced := by
  apply spaced_compactObject
  simp only [List.forall_mem_cons]
  exact ⟨trivial, trivial, trivial, List.forall_mem_nil _⟩

theorem raw_semanticsFieldJson (f : FieldDecl) :
    (semanticsFieldJson mem f).raw = semanticsFieldTree mem f := raw_compactObject _

theorem raw_domainJson (g : Bytes × List FieldDecl) :
    (domainJson mem g).raw = domainTree mem g := by
  have hfields : (g.2.map (domainFieldJson mem)).map Json.raw =
      g.2.map (domainFieldTree mem) := by
    rw [List.map_map]
    exact List.map_congr_left fun f _ => raw_compactObject _
  rw [domainJson, raw_compactObject, domainTree]
  simp only [List.map_cons, List.map_nil, Json.raw, raw_spacedArray, hfields]

theorem ink_loopParts {α : Type} {separator : Bytes} (hsep : 0 < weigh ink separator)
    {parts : α → List Bytes} (hparts : ∀ a, ∀ x ∈ parts a, 0 < weigh ink x) (first : Bool)
    (as : List α) : ∀ x ∈ loopParts separator parts first as, 0 < weigh ink x := by
  induction as generalizing first with
  | nil => exact List.forall_mem_nil _
  | cons a as ih =>
      intro x hx
      simp only [loopParts, List.mem_append] at hx
      rcases hx with (hsepar | hpart) | hrest
      · cases first with
        | true => exact absurd hsepar List.not_mem_nil
        | false => rwa [List.mem_singleton.mp hsepar]
      · exact hparts a x hpart
      · exact ih false x hrest

theorem ink_append_left {s : Bytes} (h : 0 < weigh ink s) (t : Bytes) :
    0 < weigh ink (s ++ t) := by
  rw [weigh_append]
  omega

theorem ink_semanticsParts (ts business : Bytes) (fields : List FieldDecl) :
    ∀ x ∈ semanticsParts mem ts business fields, 0 < weigh ink x := by
  rw [semanticsParts, List.forall_mem_cons]
  refine ⟨?_, ink_loopParts (by decide) (fun f x hx => ?_) true fields⟩
  · simp only [indexHeader, List.append_assoc]
    exact ink_append_left (by decide) _
  · rw [List.mem_singleton.mp hx, semanticsEntry]
    simp only [List.append_assoc]
    exact ink_append_left (by decide) _

theorem ink_knowledgeParts (ts business : Bytes) (fields : List FieldDecl) :
    ∀ x ∈ knowledgeParts mem ts business fields, 0 < weigh ink x := by
  rw [knowledgeParts, List.forall_mem_cons]
  refine ⟨?_, ink_loopParts (by decide) (fun g x hx => ?_) true _⟩
  · simp only [indexHeader, List.append_assoc]
    exact ink_append_left (by decide) _
  · rw [domainParts, List.mem_append, List.mem_append] at hx
    rcases hx with (hopen | hfields) | hclose
    · rw [List.mem_singleton.mp hopen]
      simp only [List.append_assoc]
      exact ink_append_left (by decide) _
    · refine ink_loopParts (by decide) (fun f x hx => ?_) true g.2 x hfields
      rw [List.mem_singleton.mp hx, domainEntry]
      simp only [List.append_assoc]
      exact ink_append_left (by decide) _
    · rw [List.mem_singleton.mp hclose]
      decide

theorem printsSemantics_iff (ts business : Bytes) {fields : List FieldDecl} (hne : fields ≠ []) :
    ((indexBuffer (semanticsParts mem ts business fields)).overrun = false ∧
        Spells ((indexBuffer (semanticsParts mem ts business fields)).text indexBufferSize)
          (indexTree "fields" ts business (fields.map (semanticsFieldTree mem)))) ↔
      (semanticsParts mem ts business fields ++ [indexEnd]).flatten.length ≤ indexBufferSize ∧
        (indexTree "fields" ts business (fields.map (semanticsFieldTree mem))).Plain := by
  obtain ⟨f, fs, rfl⟩ := List.exists_cons_of_ne_nil hne
  have hitems : ∀ v ∈ semanticsFieldJson mem f :: fs.map (semanticsFieldJson mem), v.Spaced := by
    intro v hv
    rw [← List.map_cons (f := semanticsFieldJson mem)] at hv
    obtain ⟨f', -, rfl⟩ := List.mem_map.mp hv
    exact spaced_semanticsFieldJson mem f'
  apply printsIndex_iff "fields" ts business
    (spaced_spacedItems (by decide) (by decide) (by decide) hitems : (spacedItems (ascii "\n    ")
      (ascii "\n    ") (ascii "\n  ") _ _).Spaced) _ (ink_semanticsParts mem ts business _)
  · rw [semanticsParts, List.cons_append, List.flatten_cons, List.flatten_append,
      List.flatten_singleton, flatten_loopParts, ← List.append_assoc]
    apply text_indexJson
    rw [text_spacedItems]
    simp only [List.flatten_singleton, text_semanticsFieldJson, List.flatMap_map,
      List.append_assoc]
    rfl
  · rw [raws_spacedItems, ← List.map_cons, List.map_map]
    exact congrArg Trees.ofList (List.map_congr_left fun f _ => raw_semanticsFieldJson mem f)

theorem printsKnowledge_iff (ts business : Bytes) {fields : List FieldDecl}
    (hne : groupFields mem fields ≠ []) :
    ((indexBuffer (knowledgeParts mem ts business fields)).overrun = false ∧
        Spells ((indexBuffer (knowledgeParts mem ts business fields)).text indexBufferSize)
          (indexTree "domains" ts business ((groupFields mem fields).map (domainTree mem)))) ↔
      (knowledgeParts mem ts business fields ++ [indexEnd]).flatten.length ≤ indexBufferSize ∧
        (indexTree "domains" ts business
          ((groupFields mem fields).map (domainTree mem))).Plain := by
  rw [knowledgeParts]
  obtain ⟨g, gs, hgroups⟩ := List.exists_cons_of_ne_nil hne
  have hink := ink_knowledgeParts mem ts business fields
  rw [knowledgeParts] at hink
  rw [hgroups] at hink ⊢
  have hitems : ∀ v ∈ domainJson mem g :: gs.map (domainJson mem), v.Spaced := by
    intro v hv
    rw [← List.map_cons (f := domainJson mem)] at hv
    obtain ⟨g', -, rfl⟩ := List.mem_map.mp hv
    exact spaced_domainJson mem g'
  apply printsIndex_iff "domains" ts business
    (spaced_spacedItems (by decide) (by decide) (by decide) hitems : (spacedItems
      (ascii "\n\n    ") (ascii "\n    ") (ascii "\n  ") _ _).Spaced) _ hink
  · rw [List.cons_append, List.flatten_cons, List.flatten_append,
      List.flatten_singleton, flatten_loopParts, ← List.append_assoc]
    apply text_indexJson
    rw [text_spacedItems]
    simp only [text_domainJson, List.flatMap_map, List.append_assoc]
    rfl
  · rw [raws_spacedItems, ← List.map_cons, List.map_map]
    exact congrArg Trees.ofList (List.map_congr_left fun g _ => raw_domainJson mem g)

theorem pushGroup_perm (domain : Bytes) (f : FieldDecl) (groups : List (Bytes × List FieldDecl)) :
    ((pushGroup domain f groups).flatMap Prod.snd).Perm (groups.flatMap Prod.snd ++ [f]) := by
  induction groups with
  | nil => exact List.Perm.refl _
  | cons g gs ih =>
      rw [pushGroup]
      split
      · simp only [List.flatMap_cons, List.append_assoc]
        exact List.Perm.append_left _ List.perm_append_comm
      split
      · simp only [List.flatMap_cons]
        exact List.perm_append_comm
      · simp only [List.flatMap_cons, List.append_assoc]
        exact List.Perm.append_left _ ih

theorem groupFields_append (fields : List FieldDecl) (f : FieldDecl) :
    groupFields mem (fields ++ [f]) =
      pushGroup (keyDomain (textAt mem f.key)) f (groupFields mem fields) := by
  rw [groupFields, List.foldl_concat, groupFields]

theorem groupFields_perm (fields : List FieldDecl) :
    ((groupFields mem fields).flatMap Prod.snd).Perm fields := by
  induction fields using List.reverseRecOn with
  | nil => exact List.Perm.refl _
  | append_singleton fields f ih =>
      rw [groupFields_append]
      exact (pushGroup_perm _ f _).trans (ih.append_right [f])

theorem groupFields_ne_nil {fields : List FieldDecl} (hne : fields ≠ []) :
    groupFields mem fields ≠ [] := by
  intro hnil
  have hperm := groupFields_perm mem fields
  rw [hnil] at hperm
  exact hne (List.nil_perm.mp hperm)

theorem domainOf_sublist (key : Bytes) : (keyDomain key).Sublist key := by
  have hsplit := List.takeWhile_append_dropWhile (p := (· ≠ ch '.')) (l := key)
  rw [keyDomain]
  split
  · exact List.Sublist.refl _
  · next dot rest hrest =>
    conv_rhs => rw [← hsplit, hrest]
    exact ((List.takeWhile_sublist _).cons_cons dot).append_left _

theorem mem_pushGroup {domain : Bytes} {f : FieldDecl} {groups : List (Bytes × List FieldDecl)}
    {g : Bytes × List FieldDecl} (hg : g ∈ pushGroup domain f groups) :
    g.1 = domain ∨ ∃ g' ∈ groups, g.1 = g'.1 := by
  induction groups with
  | nil => exact Or.inl (congrArg Prod.fst (List.mem_singleton.mp hg))
  | cons g' gs ih =>
      rw [pushGroup] at hg
      split at hg
      · next hsame =>
        rcases List.mem_cons.mp hg with rfl | hrest
        · exact Or.inl hsame
        · exact Or.inr ⟨g, List.mem_cons_of_mem _ hrest, rfl⟩
      split at hg
      · rcases List.mem_cons.mp hg with rfl | hrest
        · exact Or.inl rfl
        · exact Or.inr ⟨g, hrest, rfl⟩
      · rcases List.mem_cons.mp hg with rfl | hrest
        · exact Or.inr ⟨g, List.mem_cons_self, rfl⟩
        · rcases ih hrest with hdomain | ⟨g'', hmem, hname⟩
          · exact Or.inl hdomain
          · exact Or.inr ⟨g'', List.mem_cons_of_mem _ hmem, hname⟩

theorem name_of_mem_groups {fields : List FieldDecl} {g : Bytes × List FieldDecl}
    (hg : g ∈ groupFields mem fields) : ∃ f ∈ fields, g.1 = keyDomain (textAt mem f.key) := by
  induction fields using List.reverseRecOn generalizing g with
  | nil => exact absurd hg List.not_mem_nil
  | append_singleton fields f ih =>
      rw [groupFields_append] at hg
      rcases mem_pushGroup hg with hdomain | ⟨g', hg', hname⟩
      · exact ⟨f, List.mem_append_right _ (List.mem_singleton_self f), hdomain⟩
      · obtain ⟨f', hf', hdomain⟩ := ih hg'
        exact ⟨f', List.mem_append_left _ hf', hname.trans hdomain⟩

theorem plain_indexTypeName (t : Int) : Lib.JsonText.IsPlain (indexTypeName t) := by
  rw [indexTypeName]
  split_ifs <;> decide

theorem plain_indexName : ∀ name ∈ ["version", "1.0", "generated_at", "business_name", "fields",
    "domains", "key", "type", "description", "domain"], Lib.JsonText.IsPlain (ascii name) := by
  decide

theorem plain_append {a b : Bytes} :
    Lib.JsonText.IsPlain (a ++ b) ↔ Lib.JsonText.IsPlain a ∧ Lib.JsonText.IsPlain b :=
  List.forall_mem_append

theorem plain_of_isDigit {text : Bytes} (h : ∀ b ∈ text, IsDigit 10 b) :
    Lib.JsonText.IsPlain text := by
  intro b hb
  obtain ⟨hlow, hhigh⟩ := (h b hb).decimal_range
  refine ⟨by rw [UInt8.le_iff_toNat_le]; exact Nat.le_trans (by decide) hlow, ?_, ?_⟩
  · rintro rfl
    exact absurd hlow (by decide)
  · rintro rfl
    exact absurd hhigh (by decide)

theorem plain_isoTimestamp (ts : Option Tm) : Lib.JsonText.IsPlain (isoTimestamp ts) := by
  cases ts with
  | none => decide
  | some tm =>
      have htwo : ∀ n < 100, Lib.JsonText.IsPlain (twoDigits n) := fun n hn =>
        plain_of_isDigit fun _ => isDigit_twoDigits hn
      have hyear : Lib.JsonText.IsPlain (yearText tm.year) := by
        rw [yearText, plain_append]
        refine ⟨?_, plain_of_isDigit fun _ => isDigit_of_mem_decimal⟩
        split_ifs <;> decide
      have hmarks : ∀ mark ∈ ["-", "T", ":", "Z"], Lib.JsonText.IsPlain (ascii mark) := by decide
      simp only [List.forall_mem_cons] at hmarks
      simp only [isoTimestamp, plain_append, hyear, hmarks, htwo _ tm.month_lt, htwo _ tm.day_lt,
        htwo _ (Nat.lt_of_le_of_lt tm.hour_le (by decide)),
        htwo _ (Nat.lt_of_le_of_lt tm.min_le (by decide)),
        htwo _ (Nat.lt_of_le_of_lt tm.sec_le (by decide)), and_self]

theorem plain_indexTree {list : String} (hlist : list ∈ ["fields", "domains"]) (ts : Option Tm)
    (business : Bytes) (items : List Tree) :
    (indexTree list (isoTimestamp ts) business items).Plain ↔
      Lib.JsonText.IsPlain business ∧ ∀ t ∈ items, t.Plain := by
  have hnames := plain_indexName
  simp only [List.forall_mem_cons] at hnames
  have hname : Lib.JsonText.IsPlain (ascii list) := by
    rcases List.mem_pair.mp hlist with rfl | rfl <;> decide
  simp only [indexTree, Tree.Plain, plain_fieldsOfList, List.forall_mem_cons, hnames, hname,
    plain_isoTimestamp, plain_treesOfList, true_and, List.not_mem_nil, false_implies,
    implies_true, and_true]

theorem plain_semanticsFieldTree (f : FieldDecl) :
    (semanticsFieldTree mem f).Plain ↔ Lib.JsonText.IsPlain (textAt mem f.key) ∧
      Lib.JsonText.IsPlain (textAt mem f.description) := by
  have hnames := plain_indexName
  simp only [List.forall_mem_cons] at hnames
  simp only [semanticsFieldTree, Tree.Plain, plain_fieldsOfList, List.forall_mem_cons, hnames,
    plain_indexTypeName, true_and, List.not_mem_nil, false_implies, implies_true, and_true]

theorem plain_domainTree {fields : List FieldDecl}
    (hkeys : ∀ f ∈ fields, Lib.JsonText.IsPlain (textAt mem f.key)) :
    ∀ t ∈ (groupFields mem fields).map (domainTree mem), t.Plain := by
  intro t ht
  obtain ⟨g, hg, rfl⟩ := List.mem_map.mp ht
  have hnames := plain_indexName
  simp only [List.forall_mem_cons] at hnames
  have hdomain : Lib.JsonText.IsPlain g.1 := by
    obtain ⟨f, hf, hname⟩ := name_of_mem_groups mem hg
    rw [hname]
    exact fun c hc => hkeys f hf c ((domainOf_sublist _).subset hc)
  have hfields : ∀ f ∈ g.2, (domainFieldTree mem f).Plain := by
    intro f hf
    have hmem : f ∈ fields :=
      (groupFields_perm mem fields).subset (List.mem_flatMap.mpr ⟨g, hg, hf⟩)
    simp only [domainFieldTree, Tree.Plain, plain_fieldsOfList, List.forall_mem_cons, hnames,
      plain_indexTypeName, hkeys f hmem, List.not_mem_nil, false_implies, implies_true,
      and_true]
  simp only [domainTree, Tree.Plain, plain_fieldsOfList, List.forall_mem_cons, hnames, hdomain,
    plain_treesOfList, List.forall_mem_map, true_and, List.not_mem_nil, false_implies,
    implies_true, and_true]
  exact hfields

theorem indexFits_iff (ts : Option Tm) (business : Bytes) {fields : List FieldDecl}
    (hne : fields ≠ []) :
    (((indexBuffer (semanticsParts mem (isoTimestamp ts) business fields)).overrun = false ∧
        Spells ((indexBuffer (semanticsParts mem (isoTimestamp ts) business fields)).text
          indexBufferSize)
          (indexTree "fields" (isoTimestamp ts) business (fields.map (semanticsFieldTree mem)))) ∧
      ((indexBuffer (knowledgeParts mem (isoTimestamp ts) business fields)).overrun = false ∧
        Spells ((indexBuffer (knowledgeParts mem (isoTimestamp ts) business fields)).text
          indexBufferSize)
          (indexTree "domains" (isoTimestamp ts) business
            ((groupFields mem fields).map (domainTree mem))))) ↔
      IndexFits mem (isoTimestamp ts) business fields := by
  rw [printsSemantics_iff mem _ _ hne, printsKnowledge_iff mem _ _ (groupFields_ne_nil mem hne),
    plain_indexTree (by decide), plain_indexTree (by decide)]
  simp only [List.forall_mem_map, plain_semanticsFieldTree]
  constructor
  · rintro ⟨⟨hsem, hplain, hstrings⟩, hknow, -⟩
    exact ⟨hplain, hstrings, hsem, hknow⟩
  · intro h
    refine ⟨⟨h.semantics, h.plain, h.strings⟩, h.knowledge, h.plain, ?_⟩
    exact List.forall_mem_map.mp (plain_domainTree mem fun f hf => (h.strings f hf).1)

end Strings

theorem entries_eq_nil (order : MapOrder FieldDecl) {fields : StringMap FieldDecl}
    (h : fields = ∅) : order.entries fields = [] := by
  rw [List.eq_nil_iff_forall_not_mem]
  intro e he
  have hlookup := (order.mem_entries fields e.1 e.2).mp he
  rw [h, Finmap.lookup_empty] at hlookup
  exact absurd hlookup (Option.some_ne_none _).symm

/-- **Whatever files can be opened**, the export stays inside its buffers and its texts are JSON
that lists the declared fields, just when no string needs an escape and both texts fit. -/
theorem exportSays_iff (mem : Address → Bytes) (order : MapOrder FieldDecl)
    (s : ConfigDeclareState) (ts : Option Tm) (outputDir : Bytes) (businessName : Option Bytes) :
    (∀ env, ExportSays mem (isoTimestamp ts) (businessName.getD (ascii "default"))
        ((order.entries s.fields).map Prod.snd)
        (agentIndexExportC env mem order s ts outputDir businessName)) ↔
      s.fields = ∅ ∨ IndexFits mem (isoTimestamp ts) (businessName.getD (ascii "default"))
        ((order.entries s.fields).map Prod.snd) := by
  by_cases hempty : s.fields = ∅
  · refine iff_of_true (fun env => ?_) (Or.inl hempty)
    rw [agentIndexExportC, entries_eq_nil order hempty]
    exact ⟨rfl, fun _ h => absurd h (Option.not_mem_none _),
      fun _ h => absurd h (Option.not_mem_none _)⟩
  have hne : (order.entries s.fields).map Prod.snd ≠ [] := by
    rw [Ne, List.map_eq_nil_iff]
    exact order.entries_ne_nil hempty
  have hsome : ((order.entries s.fields).map Prod.snd).isEmpty = false := by
    rwa [List.isEmpty_eq_false_iff]
  have hperm := groupFields_perm mem ((order.entries s.fields).map Prod.snd)
  simp only [agentIndexExportC, hsome, Bool.false_eq_true, if_false, hempty, false_or]
  rw [← indexFits_iff mem ts (businessName.getD (ascii "default")) hne]
  constructor
  · intro h
    obtain ⟨hinside, hsemantics, hknowledge⟩ := h ⟨fun _ => true⟩
    obtain ⟨hsem, hknow⟩ := Bool.or_eq_false_iff.mp hinside
    exact ⟨⟨hsem, hsemantics _ rfl⟩, hknow, (hknowledge _ rfl).1⟩
  · rintro ⟨⟨hsem, hsays⟩, hknow, hlists⟩ env
    have hboth := Bool.or_eq_false_iff.mpr ⟨hsem, hknow⟩
    split
    · split
      · split
        · exact ⟨hboth, fun _ h => Option.mem_some_iff.mp h ▸ hsays,
            fun _ h => ⟨Option.mem_some_iff.mp h ▸ hlists, hperm⟩⟩
        · exact ⟨hboth, fun _ h => Option.mem_some_iff.mp h ▸ hsays,
            fun _ h => ⟨Option.mem_some_iff.mp h ▸ hlists, hperm⟩⟩
      · exact ⟨hboth, fun _ h => Option.mem_some_iff.mp h ▸ hsays,
          fun _ h => absurd h (Option.not_mem_none _)⟩
    · exact ⟨hsem, fun _ h => absurd h (Option.not_mem_none _),
        fun _ h => absurd h (Option.not_mem_none _)⟩

def longField : FieldDecl :=
  { key := 1, type := 2, defaultStr := 0, description := 2, required := false }

def longMem (p : Address) : Bytes :=
  if p = 1 then ascii "a" else List.replicate indexBufferSize (ch 'x')

theorem entries_singleton (order : MapOrder FieldDecl) (key : Bytes) (f : FieldDecl) :
    (order.entries (Finmap.singleton key f)).map Prod.snd = [f] := by
  have hmem : ∀ e ∈ order.entries (Finmap.singleton key f), e = (key, f) := by
    intro e he
    have hlookup := (order.mem_entries _ e.1 e.2).mp he
    have hkey : e.1 = key := by
      by_contra hne
      rw [Finmap.lookup_eq_none.mpr (by rwa [Finmap.mem_singleton])] at hlookup
      exact absurd hlookup (Option.some_ne_none _).symm
    rw [hkey, Finmap.lookup_singleton_eq, Option.some_inj] at hlookup
    exact Prod.ext hkey hlookup.symm
  have hself := (order.mem_entries (Finmap.singleton key f) key f).mpr Finmap.lookup_singleton_eq
  have hnodup := order.nodup_keys (Finmap.singleton key f)
  rcases hentries : order.entries (Finmap.singleton key f) with _ | ⟨e, es⟩
  · rw [hentries] at hself
    exact absurd hself List.not_mem_nil
  · rw [hentries] at hmem hnodup
    rw [hmem e List.mem_cons_self] at hnodup ⊢
    cases es with
    | nil => rfl
    | cons e' es =>
        have hsame := hmem e' (List.mem_cons_of_mem _ List.mem_cons_self)
        rw [hsame] at hnodup
        exact absurd hnodup (by simp)

/-- The end of the text is written behind the buffer. -/
theorem long_description_overruns :
    (agentIndexExportC ⟨fun _ => true⟩ longMem default
      { fields := Finmap.singleton (ascii "a") longField } none (ascii "out") none).overrun =
        true := by
  have hlong : textAt longMem 2 = List.replicate indexBufferSize (ch 'x') :=
    cstr_eq_self fun hzero => absurd (List.eq_of_mem_replicate hzero) (by decide)
  have hparts : semanticsParts longMem (ascii "unknown") (ascii "default") [longField] =
      [indexHeader "fields" (ascii "unknown") (ascii "default"), semanticsEntry longMem longField] :=
    rfl
  have hentry : (semanticsEntry longMem longField).length = indexBufferSize + 48 := by
    simp only [semanticsEntry, List.length_append, longField, hlong, List.length_replicate]
    rfl
  have hsem : (indexBuffer (semanticsParts longMem (ascii "unknown") (ascii "default")
      [longField])).overrun = true := by
    apply overrun_of_lt (by decide) (by decide)
    · rw [hparts]
      simp only [List.forall_mem_cons, hentry]
      exact ⟨by decide, by decide, List.forall_mem_nil _⟩
    · rw [hparts, List.flatten_cons, List.flatten_singleton, List.length_append, hentry]
      omega
  rw [agentIndexExportC, entries_singleton]
  simp only [List.isEmpty_cons, Bool.false_eq_true, if_false, if_true, Option.getD_none,
    isoTimestamp, hsem, Bool.true_or]

end BlessStar.Sdk
