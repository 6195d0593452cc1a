import XfceLinux.Lib.Text

/-!
# `posixpath`

The functions of `os.path` on POSIX that the scripts use.
-/

namespace XfceLinux.Lib.Path

open Text

/-- `os.path.join(a, b)` -/
def join (a b : Str) : Str :=
  if b.head? = some '/' then b
  else if a = [] ∨ a.getLast? = some '/' then a ++ b
  else a ++ '/' :: b

/-- `os.path.expanduser("~" + rest)` for a `rest` that is empty or starts with a slash;
`home` is the home directory. -/
def expanduser (home rest : Str) : Str :=
  let path := rstrip (· == '/') home ++ rest
  if path = [] then ['/'] else path

end XfceLinux.Lib.Path
