import SatSearch.CommandLine.Run

/-!
# The program

Reads the arguments and the files that they name, runs the command line, prints its outputs and
writes the files that it changed. The clock is not read: the program runs with gauges that stand
still, so the only deadline that ever passes is that of zero milliseconds.
-/

namespace SatSearch.Program

def pathsOf (args : List String) : List String × List String :=
  match Request.ofArguments args with
  | .ok (.run i) => match i.command with
    | some (.file path _) => ([path], [])
    | some (.random _ _ _ output _) | some (.sweep _ _ _ _ output _) => ([], output.toList)
    | some _ => ([], [])
    | none => (i.path.toList, [])
  | _ => ([], [])

/-- The place that a path leads to if all its steps are directories. -/
def placeOf (here : List String) (path : String) : List String :=
  (FileTree.steps path).foldl (fun place step =>
    if step = "" ∨ step = "." then place
    else if step = ".." then place.dropLast
    else place ++ [step]) (if FileTree.isAbsolute path then [] else here)

def pathOf (place : List String) : String := "/" ++ "/".intercalate place

/-- Adds what there is at a place, with everything below it. -/
partial def load (t : FileTree) (place : List String) : IO FileTree := do
  let path := System.mkFilePath [pathOf place]
  if ← path.isDir then
    let t := { t with directories := place :: t.directories }
    (← path.readDir).foldlM (fun t entry => load t (place ++ [entry.fileName])) t
  else if ← path.pathExists then
    return t.put place (← IO.FS.readBinFile path).toList
  else return t

def loadOutput (t : FileTree) (place : List String) : IO FileTree := do
  [place.dropLast, place].foldlM (fun t place => do
    let path := System.mkFilePath [pathOf place]
    if ← path.isDir then return { t with directories := place :: t.directories }
    else if ← path.pathExists then return t.put place []
    else return t) t

end SatSearch.Program

open SatSearch Program in
def main (args : List String) : IO UInt32 := do
  let here := placeOf [] (← IO.currentDir).toString
  let (inputs, outputs) := pathsOf args
  let t ← inputs.foldlM (fun t path => load t (placeOf here path)) ⟨here, [], []⟩
  let t ← outputs.foldlM (fun t path => loadOutput t (placeOf here path)) t
  let response := CommandLine.run t .still args
  for (place, bytes) in response.files.changedFrom t do
    IO.FS.writeBinFile (pathOf place) ⟨bytes.toArray⟩
  IO.print response.out
  IO.eprint response.err
  return response.exitCode.toUInt32
