import Rvvk.Lib.Lexical
import Rvvk.Path.CharArray

/-!
# Resolving a path

`get_real_path` builds the absolute path in an array of `PATH_MAX` bytes: a cursor
moves forward over every name it appends and back to the last slash for `..`.
Pointers into the array are the distances from its start.
-/

namespace Rvvk

open Lexical

def pathMax : Nat := 4096

def slash : BitVec 8 := 0x2f

def dot : BitVec 8 := 0x2e

/-- The name of a directory entry. -/
structure PathName (name : List (BitVec 8)) : Prop where
  lexical : IsName slash dot name
  nonzero : 0 ∉ name

/-- The current directory, whose path the kernel returns with its names resolved. -/
structure Directory where
  names : List (List (BitVec 8))
  named : ∀ name ∈ names, PathName name

def Directory.path (cwd : Directory) : List (BitVec 8) := render slash cwd.names

/-- What `get_real_path` finds besides its arguments. -/
structure PathContext where
  /-- There may be no path to the current directory any more. -/
  cwd : Option Directory
  /-- The array `buf` is not initialized. -/
  buf : Nat → BitVec 8
  /-- Whether `malloc` finds memory. -/
  malloc : Bool

def CString.absolute (path : CString) : Bool := path.bytes.head? == some slash

def getcwd (cwd : Option Directory) (b : CharArray) : Except PathError CharArray :=
  match cwd with
  | none => .error (.returned .syserr)
  | some cwd =>
      if cwd.path.length + 1 ≤ pathMax then b.memcpy 0 (cwd.path ++ [0])
      else .error (.returned .syserr)

namespace RealPath

/-- The array from `rp1` on and the place of `rp2`. -/
abbrev State := CharArray × Nat

def start (cwd : Option Directory) (path : CString) (b : CharArray) : Except PathError State := do
  if path.absolute then
    let b ← b.put 0 slash
    let b ← b.put 1 0
    .ok (b, 0)
  else
    let b ← getcwd cwd b
    let n ← b.strlen
    .ok (b, n)

/-- The case of `..`: back to the last slash of the string in the array. -/
def dropName (b : CharArray) : Except PathError State := do
  match ← b.strrchr slash with
  | none => .error .null
  | some rp2 =>
      let b ← b.put (if rp2 ≠ 0 then rp2 else 1) 0
      .ok (b, rp2)

/-- The default case. -/
def addName (st : State) (comp : List (BitVec 8)) : Except PathError State := do
  let b ← st.1.put st.2 slash
  let b ← b.memcpy (st.2 + 1) comp
  .ok (b, st.2 + 1 + comp.length)

/-- The `switch` on the length of a component: one byte other than a dot and two
bytes other than dots fall through to the default. -/
def step (st : State) (comp : List (BitVec 8)) : Except PathError State :=
  if comp = [] then .ok st
  else if comp = [dot] then .ok st
  else if comp = [dot, dot] then dropName st.1
  else addName st comp

/-- The components that the loop passes: `strchr` cuts the path at each slash. The
one component of an empty path, for which the loop is not entered, changes nothing. -/
def components (path : CString) : List (List (BitVec 8)) :=
  (if path.absolute then path.bytes.tail else path.bytes).splitOn slash

/-- The end of the string is set once, behind the loop. -/
def finish (st : State) : Except PathError State := do
  let rp2 := if st.2 = 0 then st.2 + 1 else st.2
  let b ← st.1.put rp2 0
  .ok (b, rp2)

end RealPath

open RealPath in
/-- The array that `get_real_path` returns, `real_path` or a new one. -/
def getRealPath (e : PathContext) (path : Option CString) (realPath : Option (Nat → BitVec 8)) :
    Except PathError CharArray := do
  match path with
  | none => .error (.returned (.errinfo "Can't resolve NULL `path'."))
  | some path =>
      let st ← start e.cwd path ⟨pathMax, realPath.getD e.buf⟩
      let st ← (components path).foldlM step st
      let (b, rp2) ← finish st
      if realPath.isSome then .ok b
      else if e.malloc then .ok { b with size := rp2 + 1 }
      else .error (.returned (.errinfo "Can't allocate extra memory."))

/-! ## What a path stands for -/

/-- The names of the directory that the path is read in. -/
def startNames (cwd : Directory) (path : CString) : List (List (BitVec 8)) :=
  if path.absolute then [] else cwd.names

def normalPath (cwd : Directory) (path : CString) : List (BitVec 8) :=
  render slash (resolve slash dot (startNames cwd path) path.bytes)

/-- Whatever the arrays hold, the string that comes back is the normalized path, and
it comes back unchanged when it is resolved in turn. -/
structure ResolvesRight (cwd : Directory) (path : CString) : Prop where
  result : ∀ buf realPath, ∃ b, getRealPath ⟨some cwd, buf, true⟩ (some path) realPath = .ok b ∧
    b.cString = .ok (normalPath cwd path)
  again : ∀ resolved : CString, resolved.bytes = normalPath cwd path →
    ∀ cwd' buf realPath, ∃ b,
      getRealPath ⟨some cwd', buf, true⟩ (some resolved) realPath = .ok b ∧
        b.cString = .ok resolved.bytes

end Rvvk
