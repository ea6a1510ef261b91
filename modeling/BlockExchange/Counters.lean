/-!
# Counters

What an exchange counts, and the text in which the counts are published: for each counter its help,
its type and its value, and a closing mark.
-/

namespace BlockExchange

structure Counters where
  sentBytes : Nat := 0
  receivedBytes : Nat := 0
  blocksReceived : Nat := 0
  blocksRejected : Nat := 0
  unwantedBlocks : Nat := 0
deriving DecidableEq, Repr

namespace Counters

/-- Name, help and value of each counter, in the order of publication. -/
def families (c : Counters) : List (String × String × Nat) := [
  ("exchange_sent_bytes", "Encoded bytes of frames written to peers", c.sentBytes),
  ("exchange_received_bytes", "Encoded bytes of frames read from peers", c.receivedBytes),
  ("exchange_blocks_received", "Verified blocks that resolved a pending want", c.blocksReceived),
  ("exchange_blocks_rejected", "Blocks dropped for an unsupported prefix or a digest mismatch",
    c.blocksRejected),
  ("exchange_unwanted_blocks", "Verified blocks that no pending want was waiting for",
    c.unwantedBlocks)]

/-- The published text, in the OpenMetrics format. -/
def text (c : Counters) : String :=
  String.join (c.families.map fun (name, help, value) =>
    "# HELP " ++ name ++ " " ++ help ++ ".\n" ++
    "# TYPE " ++ name ++ " counter\n" ++
    name ++ "_total " ++ toString value ++ "\n") ++ "# EOF\n"

end Counters
end BlockExchange
