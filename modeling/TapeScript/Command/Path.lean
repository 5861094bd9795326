/-! Paths as text, their parts apart by slashes. -/
namespace TapeScript.Path

/-- The part after the last slash, slashes at the end of the path aside. -/
def basename (path : String) : String :=
  String.ofList (((path.toList.reverse.dropWhile (· == '/')).takeWhile (· != '/')).reverse)

/-- The path of the directory that holds a path. -/
def dirname (path : String) : String :=
  let isRooted := path.toList.head? == some '/'
  let above := (path.toList.reverse.dropWhile (· == '/')).dropWhile (· != '/')
  match above with
  | [] | ['/'] => if isRooted then "/" else "."
  | _ :: rest =>
    if isRooted && rest == ['/'] then "//" else String.ofList rest.reverse

/-- A file name without its extension, the last dot and what follows it. -/
def stem (name : String) : String :=
  let chars := name.toList
  if chars.contains '.' then
    String.ofList ((chars.reverse.dropWhile (· != '.')).drop 1).reverse
  else name

/-- Add a part to normal parts, which are held last first. -/
def addPart (isRooted : Bool) (parts : List String) (part : String) : List String :=
  if part = "" ∨ part = "." then parts
  else if part = ".." then
    match parts with
    | last :: earlier => if last = ".." then part :: parts else earlier
    | [] => if isRooted then [] else [part]
  else part :: parts

/-- The path without empty parts and dots, and without parts that the next one leaves again. -/
def normalize (path : String) : String :=
  let isRooted := path.toList.head? == some '/'
  let isOpen := path.toList.getLast? == some '/'
  let parts := ((path.splitOn "/").foldl (addPart isRooted) []).reverse
  let body := "/".intercalate parts
  if isRooted then
    if parts.isEmpty then "/" else "/" ++ body ++ if isOpen then "/" else ""
  else if parts.isEmpty then if isOpen then "./" else "."
  else body ++ if isOpen then "/" else ""

/-- A path below another one. -/
def join (above below : String) : String :=
  let parts := [above, below].filter (· != "")
  if parts.isEmpty then "." else normalize ("/".intercalate parts)

end TapeScript.Path
