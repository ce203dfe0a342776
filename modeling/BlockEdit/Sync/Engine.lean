import BlockEdit.Document
import BlockEdit.Sync.Debouncer

/-!
# Keeping a tree and its text in step

An engine holds a document and the text that a text view shows of it. Someone edits the tree
(`applyEdit`) and someone types (`editText`); each side follows the other after a delay. The newer
edit wins: an edit of the tree drops typed text that was not read yet, and hands it back in an
event, and typed text drops a writing of the text that is due.

Every operation is a pure step: it takes an engine and gives its answer, the engine after it, and
the events that were published, in order.

Main statements:

* **`updatingFromText_runParse`**, **`pendingText_runParse`**: reading typed text takes it and
  leaves the engine open for edits.
-/

namespace BlockEdit

/-- How an engine writes text and how long it waits. -/
structure SyncConfig where
  /-- The time between the last edit of the tree and the new text. -/
  serializeDelay : Nat := 300
  /-- The time between the last typed text and the new tree. -/
  parseDelay : Nat := 500
  /-- The indentation of the text for each level. -/
  indent : Text := Layout.defaultIndent
deriving DecidableEq

/-- What those who show a document are told. -/
inductive SyncEvent where
  /-- The text view has to show this text. -/
  | textChanged (text : Text) (version : Nat)
  /-- The blocks of these identities have to be looked at again. -/
  | modelChanged (identities : List Identity)
  /-- The selected block moved; `isExact` is false when the new one is only similar. -/
  | activeChanged (previous current : Option Identity) (isExact : Bool)
  /-- Typed text is no document; tree and text are kept. -/
  | parseFailed (message : Text)
  /-- An edit of the tree dropped this typed text. -/
  | textDiscarded (text : Text)
deriving DecidableEq

/-- How often an engine wrote text and read it. -/
structure SyncStats where
  /-- How often text was written. -/
  serializeRuns : Nat
  /-- How often typed text was read. -/
  parseRuns : Nat
  /-- How often that failed. -/
  parseFailures : Nat
deriving DecidableEq, Repr

/-- A document and its text view. -/
structure Engine where
  /-- The document. -/
  document : Document
  /-- The text that was last published or read. -/
  text : Text
  /-- The typed text that waits to be read. -/
  pendingText : Option Text
  /-- The selected block. -/
  active : Option Identity
  /-- Whether the tree is just being replaced. -/
  updatingFromText : Bool
  /-- How often text was written and read. -/
  stats : SyncStats
  /-- How text is written and how long the engine waits. -/
  config : SyncConfig
  /-- The writing of text that is due. -/
  serializeTask : Debouncer Unit
  /-- The reading of typed text that is due. -/
  parseTask : Debouncer Unit

/-- What a step of an engine gives. -/
structure Step (α : Type) where
  /-- The answer. -/
  answer : α
  /-- The engine after the step. -/
  engine : Engine
  /-- What was published, in order. -/
  events : List SyncEvent

namespace Engine

/-! ## Starting -/

/-- An engine for a document and the text that it was read from. -/
def ofDocument (document : Document) (text : Text) (config : SyncConfig) : Engine where
  document := document
  text := text
  pendingText := none
  active := none
  updatingFromText := false
  stats := ⟨0, 0, 0⟩
  config := config
  serializeTask := Debouncer.idle
  parseTask := Debouncer.idle

/-- An engine for a document; the text view starts with the text of the document. -/
def new (document : Document) (config : SyncConfig) : Engine :=
  ofDocument document (document.text config.indent) config

/-- An engine for the document of a text, which the text view goes on showing. -/
def ofText (catalog : Catalog) (source : Text) (config : SyncConfig) :
    Except DocumentError Engine :=
  (Document.ofText catalog source .memory).map fun document => ofDocument document source config

/-! ## What is due -/

/-- Whether something is due. -/
def isPending (e : Engine) : Bool := e.serializeTask.isPending || e.parseTask.isPending

/-- Writes the text of the tree, and publishes it when it is new. -/
def runSerialize (e : Engine) : Engine × List SyncEvent :=
  if e.updatingFromText then (e, [])
  else
    let text := e.document.text e.config.indent
    let e := { e with stats := { e.stats with serializeRuns := e.stats.serializeRuns + 1 } }
    if text = e.text then (e, [])
    else ({ e with text }, [.textChanged text e.document.version])

/-- Finds the selected block in a tree that was read anew. -/
def reselect (e : Engine) : Engine × List SyncEvent :=
  match e.active with
  | none => (e, [])
  | some previous =>
    let found := IdentityTable.resolveAnew e.document.root previous
    let e := { e with active := found.identity? }
    if found.isExact && e.active = some previous then (e, [])
    else (e, [.activeChanged (some previous) e.active found.isExact])

/-- Reads the typed text that waits, and puts its tree in place of the old one. -/
def runParse (e : Engine) : Engine × List SyncEvent :=
  match e.pendingText with
  | none => (e, [])
  | some text =>
    let e := { e with
      pendingText := none
      updatingFromText := true
      stats := { e.stats with parseRuns := e.stats.parseRuns + 1 } }
    match e.document.replaceText text with
    | .ok (document, identities) =>
      let (e, events) := reselect { e with document, text }
      ({ e with updatingFromText := false }, .modelChanged identities :: events)
    | .error reason =>
      ({ e with
          updatingFromText := false
          stats := { e.stats with parseFailures := e.stats.parseFailures + 1 } },
        [.parseFailed reason.message])

/-! ## Steps -/

/-- The selection after the identities moved. -/
def followActive (e : Engine) (changes : IdentityChanges) : Engine × List SyncEvent :=
  match e.active with
  | none => (e, [])
  | some active =>
    match changes.remapOf? active with
    | some current =>
      ({ e with active := some current }, [.activeChanged (some active) (some current) true])
    | none =>
      if changes.removed.contains active then
        ({ e with active := none }, [.activeChanged (some active) none true])
      else (e, [])

/-- Drops the typed text that waits, and hands it back. -/
def discardText (e : Engine) : Engine × List SyncEvent :=
  if e.parseTask.isPending then
    ({ e with parseTask := e.parseTask.cancel, pendingText := none },
      (e.pendingText.map SyncEvent.textDiscarded).toList)
  else (e, [])

/-- An edit of the tree. The tree changes at once, and the text after the delay. -/
def applyEdit (e : Engine) (edit : Edit) : Step (Except DocumentError EditResult) :=
  match e.document.apply edit with
  | .error reason => ⟨.error reason, e, []⟩
  | .ok (document, result) =>
    let (e, moved) := followActive { e with document } result.changes
    let changed := moved ++ [.modelChanged result.touched]
    if e.updatingFromText then ⟨.ok result, e, changed⟩
    else
      let (e, discarded) := discardText e
      ⟨.ok result,
        { e with serializeTask := e.serializeTask.schedule e.config.serializeDelay () },
        changed ++ discarded⟩

/-- Text that someone types. What the text view was last given is not new, unless other typed text
waits; the answer is whether the text will be read. -/
def editText (e : Engine) (text : Text) : Step Bool :=
  if e.pendingText.isNone && text = e.text then ⟨false, e, []⟩
  else
    ⟨true,
      { e with
        pendingText := some text
        serializeTask := e.serializeTask.cancel
        parseTask := e.parseTask.schedule e.config.parseDelay () },
      []⟩

/-- Selects a block; the answer is whether there is one of this identity. -/
def select (e : Engine) (i : Identity) : Step Bool :=
  if (e.document.identities.pathOf? i).isNone then ⟨false, e, []⟩
  else
    ⟨true, { e with active := some i },
      if e.active = some i then [] else [.activeChanged e.active (some i) true]⟩

/-- Does the reading of typed text that is due. -/
def flushParse (e : Engine) : Engine × List SyncEvent :=
  if e.parseTask.isPending then runParse { e with parseTask := e.parseTask.cancel } else (e, [])

/-- Does the writing of text that is due. -/
def flushSerialize (e : Engine) : Engine × List SyncEvent :=
  if e.serializeTask.isPending then runSerialize { e with serializeTask := e.serializeTask.cancel }
  else (e, [])

/-- Does everything that is due without waiting. -/
def flush (e : Engine) : Step Unit :=
  let (e, parsed) := flushParse e
  let (e, serialized) := flushSerialize e
  ⟨(), e, parsed ++ serialized⟩

/-- Whether the reading of typed text is due before the writing of text. -/
def parseIsFirst (e : Engine) : Bool :=
  match e.parseTask.waiting, e.serializeTask.waiting with
  | some p, some s => p.delay ≤ s.delay
  | _, _ => true

/-- Lets time pass, in which what is due is done, the earlier before the later. -/
def sleep (e : Engine) (time : Nat) : Step Unit :=
  let (parseTask, parseRun) := e.parseTask.elapse time
  let (serializeTask, serializeRun) := e.serializeTask.elapse time
  let parse := fun e => if parseRun.isSome then runParse e else (e, [])
  let serialize := fun e => if serializeRun.isSome then runSerialize e else (e, [])
  let (first, second) := if e.parseIsFirst then (parse, serialize) else (serialize, parse)
  let (e, earlier) := first { e with parseTask, serializeTask }
  let (e, later) := second e
  ⟨(), e, earlier ++ later⟩

/-! ## Laws -/

/-- **Reading typed text** leaves the engine open for edits. -/
theorem updatingFromText_runParse {e : Engine} (h : e.updatingFromText = false) :
    (runParse e).1.updatingFromText = false := by
  unfold runParse
  split
  · exact h
  · dsimp only
    split <;> rfl

/-- **Reading typed text** takes the text. -/
theorem pendingText_runParse (e : Engine) : (runParse e).1.pendingText = none := by
  unfold runParse
  split
  · next h => exact h
  · dsimp only
    split
    · unfold reselect
      dsimp only
      split
      · rfl
      · split <;> rfl
    · rfl

end Engine

end BlockEdit
