import BlessStar.Lib.LruCache
import BlessStar.Lib.Transition
import BlessStar.Session.GateCache

/-!
# The session reader

`ConfigSessionReader` of `config_session_reader.cpp`: instructions by path and
name, through a cache of those asked for before.
-/

namespace BlessStar.Sdk

open Lib.ByteString Lib.LruCache Lib.Transition Session

/-- `ConfigSessionReader`; `map_` finds the entries of `list_` by their keys. -/
structure ConfigSessionReader where
  lastVersion : UInt64 := 0
  list : Lru Bytes IRInstruction := []

def softLimit : Nat := 128

def makeKey (pathKey instrName : Bytes) : Bytes := pathKey ++ ascii ":" ++ instrName

def currentInstruction (ctx : GateResults) (pathKey instrName : Bytes) : Option IRInstruction :=
  (ctx.getGateResult pathKey).bind fun list => list.find? fun i => i.name = some instrName

namespace ConfigSessionReader

def refresh (_r : ConfigSessionReader) (ctx : GateResults) : ConfigSessionReader where
  lastVersion := ctx.hotUpdateVersion
  list := []

def watched (r : ConfigSessionReader) (ctx : GateResults) : ConfigSessionReader :=
  if r.lastVersion < ctx.hotUpdateVersion then r.refresh ctx else r

def getInstruction (r : ConfigSessionReader) (ctx : GateResults) (pathKey instrName : Bytes) :
    Option IRInstruction × ConfigSessionReader :=
  let r := r.watched ctx
  let key := makeKey pathKey instrName
  match r.list.find key with
  | some value => (some value, { r with list := r.list.touch key })
  | none =>
      match currentInstruction ctx pathKey instrName with
      | none => (none, r)
      | some matched =>
          (some matched, { r with list := r.list.put softLimit key matched })

end ConfigSessionReader

inductive ReaderCall
  | reloadRun (gated : List (Bytes × IRInstructionList)) (allOk : Bool)
  | sessionCommit (files : Option (List (Bytes × IRInstructionList) × Bool))
      (mems : List (Bytes × IRInstructionList))
  | getInstruction (pathKey instrName : Bytes)
  | refresh

/-- The context and the reader; `asked` is what each key was asked for last. -/
structure ReaderRun where
  ctx : GateResults := {}
  reader : ConfigSessionReader := {}
  asked : Bytes → Option (Bytes × Bytes) := fun _ => none

def readerStep (t : ReaderRun) : ReaderCall → ReaderRun
  | .reloadRun gated allOk => { t with ctx := t.ctx.reloadRun gated allOk }
  | .sessionCommit files mems => { t with ctx := t.ctx.sessionCommit files mems }
  | .getInstruction pathKey instrName =>
      { t with
        reader := (t.reader.getInstruction t.ctx pathKey instrName).2
        asked := Function.update t.asked (makeKey pathKey instrName) (some (pathKey, instrName)) }
  | .refresh => { t with reader := t.reader.refresh t.ctx }

def readerMachine : Machine ReaderRun ReaderCall where
  init := {}
  step := fun t e => some (readerStep t e)

/-- What a call sets comes with a version that the reader has not seen, or says of
the instructions that are cached what the cache does; and what is cached under a key
was asked for with this path and this name. -/
def Followed (t : ReaderRun) : ReaderCall → Prop
  | .getInstruction pathKey instrName =>
      (t.reader.watched t.ctx).list.find (makeKey pathKey instrName) ≠ none →
        t.asked (makeKey pathKey instrName) = some (pathKey, instrName)
  | .refresh => True
  | e =>
      let ctx := (readerStep t e).ctx
      t.reader.lastVersion < ctx.hotUpdateVersion ∨
        ctx.hotUpdateVersion = t.ctx.hotUpdateVersion ∧
          ∀ kv ∈ (t.reader.watched t.ctx).list, ∀ asked ∈ t.asked kv.1,
            currentInstruction ctx asked.1 asked.2 = currentInstruction t.ctx asked.1 asked.2

end BlessStar.Sdk
