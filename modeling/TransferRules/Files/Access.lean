import TransferRules.Failure

/-!
# Access to files

What the program does with files is to look whether one is there, to read and to write it as a
whole, and to make the directory for one.  Everything above works with any such access: to the
files of the machine, or to files held in memory.
-/

namespace TransferRules

/-- Access to files. -/
structure FileAccess (m : Type → Type) where
  /-- Whether there is a file or directory. -/
  isPresent : String → m Bool
  /-- The text of a file. -/
  read : String → m (Except FileError String)
  /-- Write a file, in place of an old one. -/
  write : String → String → m (Except FileError Unit)
  /-- Make a directory and those above it, as far as they are missing. -/
  makeDirectory : String → m (Except FileError Unit)

end TransferRules
