import TinyIsa.Console.Style

/-!
# The banner

* `versionText`: the answer to the question for the version.
* `bannerText`: how the program introduces itself when nothing is asked of it.
* `usageText`: what it says when it does not understand its arguments.
-/

namespace TinyIsa

/-- The name under which the program runs. -/
def programName : String := "isakit"

/-- The version of the program. -/
def programVersion : String := "0.1.0"

/-- The style of the name in large letters. -/
def boldWhite : String := "1;37"

/-- The answer to the question for the version. -/
def versionText : String := programName ++ " " ++ programVersion ++ "\n"

/-- The name in large letters. -/
def logo : String :=
  "\n  _           _    _ _" ++
  "\n (_)___  __ _| | _(_) |_" ++
  "\n | / __|/ _` | |/ / | __|" ++
  "\n | \\__ \\ (_| |   <| | |_" ++
  "\n |_|___/\\__,_|_|\\_\\_|\\__|"

/-- What the program is for. -/
def introduction : String :=
  "\nWelcome to isakit, a toolkit for assembling and emulating small instruction set\n" ++
  "architectures. Programs are written for the 16-bit Armlet machine.\n" ++
  "Please use `-h` or `--help` to access the usage instructions and documentation.\n"

/-- How the program introduces itself. -/
def bannerText (color : Bool) : String :=
  "\n~ " ++ programName ++ " v" ++ programVersion ++ " ~\n" ++ paint color boldWhite logo ++ "\n" ++
    introduction ++ "\n"

/-- The forms of a command line. -/
def usageText : String :=
  "Usage: " ++ programName ++ " [PATH]\n" ++
  "       " ++ programName ++ " run [-m] [--max-steps N] [-i MILLISECONDS] FILE\n" ++
  "       " ++ programName ++ " assemble FILE [DEST]\n" ++
  "       " ++ programName ++ " check|list|watch FILE\n"

end TinyIsa
