/-
# The password file

An executable passfile is run through the shell, with the archive as its
argument: `exec` puts the archive's path between single quotes and the
passfile's in front of it as it is. `cmd_runs_iff` is when the shell runs
that file with that argument.
-/
import Fuse3P7zip.Com
import Fuse3P7zip.Lib.Shell

namespace Fuse3P7zip

/-- `PasswordFromFile`: two paths, which come from the command line or the
environment and have no NUL. -/
structure PasswordFromFile where
  archive : Str
  path : Str
  deriving DecidableEq

namespace PasswordFromFile

/-- The command line `exec` gives to `popen`. -/
def cmd (this : PasswordFromFile) : Str := this.path ++ [' ', '\''] ++ this.archive ++ ['\'']

/-- **What `exec` runs.** It is the passfile with the archive as its argument
exactly when the shell takes the passfile's path for a word as it stands,
and the archive's path has no quote in it. -/
theorem cmd_runs_iff (pathnames : Shell.Word → List Str) (this : PasswordFromFile) :
    Shell.Runs pathnames this.cmd [this.path, this.archive] ↔
      (Shell.IsPlain this.path ∧ Shell.isReserved (Shell.unquoted this.path) = false ∧
        Shell.isAssignment (Shell.unquoted this.path) = false ∧
        (Shell.hasPattern (Shell.unquoted this.path) = true →
          pathnames (Shell.unquoted this.path) = [] ∨ pathnames (Shell.unquoted this.path) = [this.path])) ∧
      '\'' ∉ this.archive := by
  have h : this.cmd = this.path ++ ' ' :: '\'' :: (this.archive ++ ['\'']) := by simp [cmd]
  rw [h]
  exact Shell.runs_iff pathnames this.path this.archive

/-- An archive named `a';id;'` ends the quotes, and `id` is another command; for
one named `a'b'c` the file gets `abc`. -/
theorem quote_ends_argument :
    ¬ Shell.Runs (fun _ => []) (cmd ⟨['a', '\'', ';', 'i', 'd', ';', '\''], ['/', 'p']⟩)
      [['/', 'p'], ['a', '\'', ';', 'i', 'd', ';', '\'']] ∧
    (Shell.command (cmd ⟨['a', '\'', 'b', '\'', 'c'], ['/', 'p']⟩)).map (List.map Shell.Word.text) =
      some [['/', 'p'], ['a', 'b', 'c']] := by
  refine ⟨fun ⟨ws, h, _⟩ => ?_, by decide⟩
  have hnone : Shell.command (cmd ⟨['a', '\'', ';', 'i', 'd', ';', '\''], ['/', 'p']⟩) = none := by decide
  cases hnone.symm.trans h

end PasswordFromFile

end Fuse3P7zip
