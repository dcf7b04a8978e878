import Selene.Persist.Wal

/-!
# The log reader

`logical_stream/reader.rs`: `LogicalReader` reads the captured bytes of one segment
frame by frame, from the position its selected root names.
-/

namespace Selene.Persist

open Octets

/-- `Selected::base`: the position before the first record the context expects. -/
def Context.base (ctx : Context) : Position where
  store := ctx.store
  epoch := ctx.epoch
  segment := ctx.segment
  sequence := ctx.sequence - 1
  offset := 0
  digest := ctx.previous

/-- `rest` is what the captured file (`Take<File>`) has left. -/
structure LogicalReader where
  rest : Bytes
  context : Context
  limit : ℕ
  ended : Bool
  failed : Bool
  incomplete : Bool
  position : Position
  lastRecordOffset : UInt64
  logName : String
deriving DecidableEq

namespace LogicalReader

/-- `open`, once the root is selected: `file` is the segment's content at that moment. -/
def fromSelection (file : Bytes) (ctx : Context) (logName : String) (limit : ℕ) :
    Except StreamError LogicalReader :=
  if Frame.maxPayload < limit then .error (.frame .limit)
  else .ok {
    rest := file
    context := ctx
    limit := limit
    ended := false
    failed := false
    incomplete := false
    position := ctx.base
    lastRecordOffset := 0
    logName := logName }

variable (N : Native)

/-- The cursor moves over one verified record. -/
def accept (r : LogicalReader) (body : Bytes) (digest : Digest) (consumed : ℕ) :
    LogicalReader × Except StreamError (Option Bytes) :=
  let r := { r with lastRecordOffset := r.position.offset }
  match checkedAdd r.context.sequence 1 with
  | none => (r, .error (.protocol "sequence exhausted"))
  | some sequence =>
    let r := { r with
      context := { r.context with sequence := sequence, previous := digest }
      position := { r.position with sequence := sequence - 1 } }
    match checkedAdd r.position.offset consumed with
    | none => (r, .error (.frame .limit))
    | some offset =>
      ({ r with position := { r.position with offset := offset, digest := digest }, ended := false },
        .ok (some body))

/-- The decode loop. Each round either returns or reads at least one more byte of the file, so
`rest.length + 1` rounds are enough; `bytes` is what has been read of this record. -/
def readLoop : ℕ → LogicalReader → Bytes → LogicalReader × Except StreamError (Option Bytes)
  | 0, r, _ => (r, .error (.protocol "decoder made no progress"))
  | fuel + 1, r, bytes =>
    match Frame.decode N bytes r.context .unsealedEnd r.limit with
    | .error e => (r, .error (.frame e))
    | .ok (.incomplete needed) =>
      if bytes.length < needed then
        let missing := needed - bytes.length
        let read := r.rest.take missing
        let r := { r with rest := r.rest.drop missing }
        if read.length < missing then ({ r with incomplete := true }, .ok none)
        else readLoop fuel r (bytes ++ read)
      else (r, .error (.protocol "decoder made no progress"))
    | .ok (.complete body digest consumed) => accept r body digest consumed

def readNext (r : LogicalReader) : LogicalReader × Except StreamError (Option Bytes) :=
  if r.ended then (r, .ok none)
  else
    let bytes := r.rest.take Frame.headerLen
    let r := { r with ended := true, rest := r.rest.drop Frame.headerLen }
    if bytes = [] then (r, .ok none) else readLoop N (r.rest.length + 2) r bytes

def nextBody (r : LogicalReader) : LogicalReader × Except StreamError (Option Bytes) :=
  if r.failed then (r, .error .terminated)
  else
    match readNext N r with
    | (r', .ok body) => (r', .ok body)
    | (r', .error e) =>
      ({ r' with failed := true },
        .error (.artifact r.logName (some r.position.offset) (some r.context.sequence) e))

/-- The answers of `n` successive calls, and the reader after them. -/
def reads : ℕ → LogicalReader → List (Except StreamError (Option Bytes)) × LogicalReader
  | 0, r => ([], r)
  | n + 1, r => ((nextBody N r).2 :: (reads n (nextBody N r).1).1, (reads n (nextBody N r).1).2)

end LogicalReader

end Selene.Persist
