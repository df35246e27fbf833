namespace SmallLisp.Cli

inductive Lookup where
  | contents (text : List Char)
  | absent
  | directory
  | blocked
  | tooLong
  | unusable

namespace Lookup

def complaint (name : String) : Lookup → String
  | .contents _ => ""
  | .absent => s!"open {name}: no such file or directory"
  | .directory => s!"read {name}: is a directory"
  | .blocked => s!"open {name}: not a directory"
  | .tooLong => s!"open {name}: file name too long"
  | .unusable => s!"open {name}: invalid argument"

end Lookup

structure Directory where
  files : List (List String × List Char)

namespace Directory

def splitName (name : String) : List String := name.splitOn "/"

def ofList (files : List (String × List Char)) : Directory :=
  ⟨files.map fun (name, text) => (splitName name, text)⟩

def file? (d : Directory) (path : List String) : Option (List Char) := d.files.lookup path

def isDirectory (d : Directory) (path : List String) : Bool :=
  path.isEmpty || d.files.any fun (name, _) => path.isPrefixOf name && path ≠ name

def maxPart : Nat := 255

def maxName : Nat := 4095

def missing (part : String) : Lookup := if maxPart < part.utf8ByteSize then .tooLong else .absent

def isTrivial (part : String) : Bool := part = "" || part = "." || part = ".."

def above (parts : List String) : Lookup :=
  (parts.find? (!isTrivial ·)).elim .directory missing

def systemDirectories : List String :=
  ["bin", "dev", "etc", "home", "lib", "proc", "root", "sbin", "tmp", "usr", "var"]

def fromRoot (parts : List String) : Lookup :=
  match parts.filter (!isTrivial ·) with
  | [] => .directory
  | ["dev", "null"] => .contents []
  | [part] => if systemDirectories.contains part then .directory else missing part
  | part :: _ => missing part

def follow (d : Directory) (path : List String) : List String → Lookup
  | [] =>
      match d.file? path with
      | some text => .contents text
      | none => if d.isDirectory path then .directory else .absent
  | part :: parts =>
      if (d.file? path).isSome then .blocked
      else if !d.isDirectory path then .absent
      else if part = "" ∨ part = "." then follow d path parts
      else if part = ".." then
        if path.isEmpty then above parts else follow d path.dropLast parts
      else if maxPart < part.utf8ByteSize then .tooLong
      else follow d (path ++ [part]) parts

def lookup (d : Directory) (name : String) : Lookup :=
  if name.toList.contains '\x00' then .unusable
  else if maxName < name.utf8ByteSize then .tooLong
  else
    match splitName name with
    | [] => .absent
    | [""] => .absent
    | "" :: parts => fromRoot parts
    | parts => d.follow [] parts

end Directory

end SmallLisp.Cli
