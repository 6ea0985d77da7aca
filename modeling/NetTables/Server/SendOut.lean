import NetTables.Server.Inner
import Mathlib.Algebra.Order.Ring.Rat
import Mathlib.Algebra.Order.Group.Unbundled.Abs

namespace NetTables.Server

open Lib Lib.Fallible Spec

/-- The clock readings of one pass, in the turn of each subscription: for the comparison with the
period, for the offset to the next run, and for the new timestamp. -/
structure SendClock where
  check : SubIdx → Instant
  offset : SubIdx → Instant
  stamp : SubIdx → Instant

/-- `Instant::elapsed`, which is never negative. -/
def elapsed (now since : Instant) : ℚ := max 0 (now - since)

/-- `i32::try_from(topic_idx)` -/
def tryFromI32 (topicIdx : TopicIdx) : Option Int32 :=
  if topicIdx.toNat < 2 ^ 31 then some topicIdx.toInt32 else none

/-- The buffer for the values of one topic. -/
def encodeBatch (value : TopicIdx × List ServerSendableValue) : ServerM (List ValueFrame) :=
  foldEach value.2 [] fun buf val => do
    let id ← unwrapOr (tryFromI32 value.1) "Topic idx overflowing i32"
    match val with
    | .normalValue v => pure (buf ++ [⟨id, v⟩])

/-- The send of one batch; an error of it is logged and dropped. -/
def sendBatch (clientIdx : ClientIdx) (value : TopicIdx × List ServerSendableValue) :
    ServerM Unit := do
  let buf ← encodeBatch value
  attempt (sendBinary clientIdx buf)

/-- One turn of the loop of `send_out`; the carried value is `soonest_offset`. -/
def sendTurn (o : IterOrder) (clock : SendClock) (soonestOffset : ℚ)
    (subEntry : SubIdx × (Subscription × ClientIdx)) : ServerM ℚ := do
  let (subIdx, subscription, clientIdx) := subEntry
  let options := subscription.options.getD {}
  if options.topicsOnly.getD false then
    pure soonestOffset
  else
    let sendInstant ← unwrapOr ((← get).subSendTimestamps.lookup subIdx) "Sub timestamp missing"
    let periodic := options.periodic.getD (1 / 10)
    if |elapsed (clock.check subIdx) sendInstant - periodic| < 1 / 1000 then
      pure (periodic - elapsed (clock.offset subIdx) sendInstant)
    else
      modify fun s => { s with
        subSendTimestamps := s.subSendTimestamps.insert subIdx (clock.stamp subIdx) }
      match (← get).clients.lookup clientIdx with
      | none => pure soonestOffset
      | some _ =>
        let stored ← unwrapOr ((← get).subValues.lookup subIdx) "Sub values did not exists"
        modify fun s => { s with subValues := s.subValues.insert subIdx stored.takeValues.2 }
        forEach (o.arrange stored.takeValues.1) (sendBatch clientIdx)
        pure soonestOffset

/-- One pass of the `send_out` loop, up to its sleep. -/
def sendOut (o : IterOrder) (clock : SendClock) (soonestOffset : ℚ) : ServerM ℚ := do
  foldEach (o.walk (← get).subscriptions) soonestOffset (sendTurn o clock)

end NetTables.Server
