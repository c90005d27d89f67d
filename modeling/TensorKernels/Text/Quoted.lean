import TensorKernels.Text.Hex
import TensorKernels.Text.Hidden

/-!
Quoted text. Quotation marks, backslashes and the usual control characters are written with a
backslash; any other character that would not show on its own, because it is invisible or combines
with the one before it, is written by its number.
-/

namespace TensorKernels.Text

def escape (c : Char) : String :=
  if c = '"' then "\\\""
  else if c = '\\' then "\\\\"
  else if c = '\n' then "\\n"
  else if c = '\t' then "\\t"
  else if c = '\r' then "\\r"
  else if c = Char.ofNat 0 then "\\0"
  else if isHidden c then
    "\\u\x7b" ++ hex c.toNat ++ "\x7d"
  else String.singleton c

def quoted (s : String) : String :=
  "\"" ++ String.join (s.toList.map escape) ++ "\""

end TensorKernels.Text
