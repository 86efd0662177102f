import Mintage.Amount
import Mintage.MintError

/-!
# Journal

What operators are told of each mint. Entries are kept as data; `message` is
their wording.
-/

namespace Mintage

inductive Level
  | debug | warn
  deriving DecidableEq

def Level.name : Level → String
  | debug => "DEBUG"
  | warn => "WARN"

inductive JournalEntry
  /-- A mint of so many coins reached a stage. -/
  | reached (stage : Stage) (amount : Amount) (denom : Bytes)
  /-- The keyring holds a text under the name that is not an address. -/
  | unreadableAddress (name : String) (text : Bytes)
  /-- A mint failed. -/
  | aborted (error : MintError)
  deriving DecidableEq

namespace JournalEntry

def level : JournalEntry → Level
  | reached .. => .debug
  | unreadableAddress .. => .warn
  | aborted .. => .warn

def message : JournalEntry → String
  | reached stage amount denom =>
    stage.display ++ " mint of " ++ Bytes.toAscii amount.decimal ++ " " ++ Bytes.listing denom
  | unreadableAddress name text =>
    "identity store returned an unparsable address for " ++ name ++ ": " ++ Bytes.listing text
  | aborted error =>
    "mint aborted while " ++ error.stage.display ++ ": " ++ error.display

end JournalEntry

end Mintage
