import MaximalMunch.Text.Utf8

/-!
# Hosts

What the commands need of the system they run on: files, directories and a stopwatch. The commands
are written for any `Host`, so they can run on a real file system or on a value.
-/

namespace MaximalMunch

/-- Why a file cannot be had, in the words of the system. -/
inductive AccessError where
  /-- The file cannot be opened. -/
  | notOpened (reason : String)
  /-- The file can be opened but not read. -/
  | notRead (reason : String)
deriving DecidableEq, Repr

/-- The reason in words. -/
def AccessError.reason : AccessError → String
  | .notOpened reason => reason
  | .notRead reason => reason

/-- A system on which commands run. -/
structure Host (m : Type → Type) where
  /-- The bytes of a file. -/
  read : String → m (Except AccessError Text.Bytes)
  /-- Makes a file or replaces it; fails with a reason. -/
  write : String → Text.Bytes → m (Except String Unit)
  /-- Makes a directory and those around it, as far as they are missing; fails with a reason. -/
  makeDirectories : String → m (Except String Unit)
  /-- Starts a stopwatch. It tells the milliseconds that have passed, as text. -/
  startStopwatch : m (m String)

end MaximalMunch
