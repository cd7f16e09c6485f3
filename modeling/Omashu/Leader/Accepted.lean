import Omashu.Store.Managed
import Omashu.Leader.Counters

/-!
# Accepted writes that cannot be applied

A client's write is checked when it is made: the transaction is open, its key is not empty, its delta
can be marshalled. It is applied later, on every replica, to the values that the store then has. The
checks do not look at the stored value, nor at what Badger and `applyTransaction` will accept, so
there are writes that are accepted, committed and cannot be applied. An error of `Apply` stops the
Ready loop, and a counter that is shorter than eight bytes panics.

Even two increments of one counter are enough. The oracle gives both the same read timestamp, since an
increment is not a read for it. Badger looks the counter up when it applies the second one, finds that
it has been written above the read timestamp, and refuses the commit.
-/

namespace Omashu

open Lib

namespace Leader

/-- A value of one byte is set, and then incremented. -/
def incrementOfByte : List (Action Two) :=
  List.flatten
    [beginCall .first .single, [.write .first (.set [1] [7] none) someEnv], finishCall .first 1001,
      beginCall .second .single, [.write .second (.incrBy [1] 1) someEnv],
      [.commit .second [1002], .doneCommit .second, .discard .second, .propose .second, .ack .second,
        .apply someEnv]]

/-- The leader after these calls. -/
def afterIncrementOfByte : Leader Two :=
  final (guarded (step rejectDeltas) AllocatesForward) (serving clockAt1000 []) incrementOfByte
    (by decide +kernel)

/-- A transaction deletes the keys with a prefix. -/
def prefixTransaction : List (Action Two) :=
  List.flatten
    [beginCall .first .transaction, [.write .first (.deleteByPrefix [1]) someEnv],
      [.commit .first [1001], .doneCommit .first, .discard .first, .propose .first, .ack .first,
        .apply someEnv]]

/-- The leader after this call. -/
def afterPrefixTransaction : Leader Two :=
  final (guarded (step rejectDeltas) AllocatesForward) (serving clockAt1000 []) prefixTransaction
    (by decide +kernel)

/-- How a replica fares with the log of a leader, from a database with the default options. -/
def replayed (s : Leader Two) (db : Store) : Option Err :=
  ((ManagedDb.opened db).replay .byDefault ManagedDb.keyByte rejectDeltas
    (s.log.map fun e => (someEnv, e.command))).2

end Leader

end Omashu
