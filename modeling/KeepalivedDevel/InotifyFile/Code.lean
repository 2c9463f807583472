import KeepalivedDevel.CLib.CString
import Mathlib.Logic.Function.Basic

/-!
# inotify_file

`code_test/inotify_file.c` follows one name in a directory: it watches the
directory for the name coming and going and the file for being written, and
prints the first line of the file. The model has the directory entry, the
kernel's watches and event queue, and the program with a step for everything
between which another process may change the directory. The watch of the file
has the mask `IN_CLOSE_WRITE`. What has the name may be something that `fopen`
cannot open; a named pipe, on which it would wait, is left out.
-/

namespace KeepalivedDevel.InotifyFile
open CLib

/-! ### The kernel -/

inductive Mask where
  | create
  | delete
  | movedFrom
  | movedTo
  | closeWrite
  | deleteSelf
  | moveSelf
  | ignored
  deriving DecidableEq

/-- An event; `named` if it comes with the name that the program follows. -/
structure InotifyEvent where
  wd : ℕ
  mask : Mask
  named : Bool
  deriving DecidableEq

def dirWd : ℕ := 1

/-- Where the program is: lines 128 and 130 before the loop, `read` of the events, the
head of the `for` loop, a call of `read_file`, or behind an `fclose` of a null pointer. -/
inductive Pc where
  | watchFirst
  | readFirst
  | poll
  | event
  | readFile
  | fcloseNull
  deriving DecidableEq

inductive Line where
  | changed (line : List UInt8)
  | unchanged
  | fgetsNull
  deriving DecidableEq

/-- What a file allows: `fopen` and `inotify_add_watch`, only a watch (a socket), or
neither (a link that leads nowhere, a file without read permission). -/
inductive Access where
  | opens
  | watchOnly
  | neither
  deriving DecidableEq

/-- Files are numbered in the order in which the directory sees them; `file` is the
one that has the name. A watch is the file's number with the watch descriptor. -/
structure System where
  file : Option ℕ
  seen : ℕ
  contents : ℕ → List UInt8
  access : ℕ → Access
  watches : List (ℕ × ℕ)
  nextWd : ℕ
  queue : List InotifyEvent
  pc : Pc
  buffer : List InotifyEvent
  fileWd : Option ℕ
  oldLine : List UInt8
  printed : List Line

/- The kernel does not queue an event that is like the last one in the queue. -/
def System.enqueue (s : System) (e : InotifyEvent) : System :=
  if s.queue.getLast? = some e then s else { s with queue := s.queue ++ [e] }

def System.dirEvent (s : System) (mask : Mask) : System := s.enqueue ⟨dirWd, mask, true⟩

def System.fileEvent (s : System) (file : ℕ) (mask : Mask) : System :=
  match s.watches.lookup file with
  | some wd => s.enqueue ⟨wd, mask, false⟩
  | none => s

/-! ### Operations on the directory -/

/-- `write` is the end of writing to a file, which may have lost the name meanwhile;
`release` is the end of a file that has lost its name. A file that is renamed to the
name is one seen before or a new one. `chmod` is any change of what a file allows;
none of the watches tells of it. -/
inductive Op where
  | create (access : Access)
  | write (file : ℕ) (text : List UInt8)
  | delete
  | moveFrom
  | moveTo (file : Option ℕ) (text : List UInt8) (access : Access)
  | release (file : ℕ)
  | chmod (file : ℕ) (access : Access)

def System.newFile (s : System) (text : List UInt8) (access : Access) : System :=
  { s with
    file := some s.seen
    seen := s.seen + 1
    contents := Function.update s.contents s.seen text
    access := Function.update s.access s.seen access }

def System.op (s : System) : Op → System
  | .create access =>
    match s.file with
    | none => (s.newFile [] access).dirEvent .create
    | some _ => s
  | .write file text =>
    { s with contents := Function.update s.contents file text }.fileEvent file .closeWrite
  | .delete =>
    match s.file with
    | none => s
    | some _ => { s with file := none }.dirEvent .delete
  | .moveFrom =>
    match s.file with
    | none => s
    | some _ => { s with file := none }.dirEvent .movedFrom
  | .moveTo (some file) text access =>
    if s.file = some file then s
    else if file < s.seen then { s with file := some file }.dirEvent .movedTo
    else (s.newFile text access).dirEvent .movedTo
  | .moveTo none text access => (s.newFile text access).dirEvent .movedTo
  | .release file =>
    if s.file = some file then s
    else { s.fileEvent file .ignored with watches := s.watches.filter fun w => w.1 ≠ file }
  | .chmod file access => { s with access := Function.update s.access file access }

/-! ### The program -/

/- The file that the name leads to, if `inotify_add_watch` takes it. -/
def System.watchable (s : System) : Option ℕ :=
  match s.file with
  | none => none
  | some file => if s.access file = .neither then none else some file

/- `inotify_add_watch` gives a file that is watched already its old descriptor. -/
def System.watchFile (s : System) : System :=
  match s.watchable with
  | none => { s with fileWd := none }
  | some file =>
    match s.watches.lookup file with
    | some wd => { s with fileWd := some wd }
    | none =>
      { s with
        watches := (file, s.nextWd) :: s.watches
        nextWd := s.nextWd + 1
        fileWd := some s.nextWd }

/- `inotify_rm_watch(inotify_fd, file_wd)` and the lines behind it; it fails for the
descriptor -1 and for one whose file has gone. -/
def System.removeWatch (s : System) : System :=
  match s.fileWd with
  | none => { s with oldLine := [] }
  | some wd =>
    if wd ∈ s.watches.map Prod.snd then
      { s.enqueue ⟨wd, .ignored, false⟩ with
        watches := s.watches.filter fun w => w.2 ≠ wd
        fileWd := none
        oldLine := [] }
    else { s with fileWd := none, oldLine := [] }

/- `fgets(new_line, 128, fp)` at the beginning of a file. -/
def fgets (text : List UInt8) : Option (List UInt8) :=
  if text = [] then none
  else some ((text.takeWhile (· ≠ 10) ++ (text.dropWhile (· ≠ 10)).take 1).take 127)

/- The string in `new_line` without a newline at its end. -/
def chomp (line : List UInt8) : List UInt8 :=
  if (cstr line).getLast? = some 10 then (cstr line).dropLast else cstr line

/- The file that `fopen` opens. -/
def System.fopen (s : System) : Option ℕ :=
  match s.file with
  | none => none
  | some file => if s.access file = .opens then some file else none

/-- Where `fopen` fails, `fclose` is called all the same. -/
def System.readFile (s : System) : System :=
  match s.fopen with
  | none => { s with pc := .fcloseNull }
  | some file =>
    match fgets (s.contents file) with
    | none => { s with pc := .event, oldLine := [], printed := s.printed ++ [.fgetsNull] }
    | some line =>
      if s.oldLine ≠ chomp line then
        { s with
          pc := .event
          oldLine := chomp line
          printed := s.printed ++ [.changed (chomp line)] }
      else { s with pc := .event, printed := s.printed ++ [.unchanged] }

/- An event of the loop up to the call of `read_file` if there is one. No file has the
descriptor of the directory, so at most one of the two outer conditions holds. -/
def System.handle (s : System) (e : InotifyEvent) : System :=
  if s.fileWd = some e.wd then
    match e.mask with
    | .deleteSelf | .moveSelf => s.removeWatch
    | .closeWrite => { s with pc := .readFile }
    | _ => s
  else if e.wd = dirWd then
    match e.mask with
    -- break: the events left in the buffer are dropped
    | .deleteSelf | .moveSelf => { s with buffer := [] }
    -- read_file is called even if the watch could not be added
    | .create | .movedTo => if e.named then { s.watchFile with pc := .readFile } else s
    | .delete | .movedFrom => if e.named then s.removeWatch else s
    | _ => s
  else s

/-- The next step of the program; `read` waits for an event and takes at most
`count + 1` of them. -/
def System.run (s : System) (count : ℕ) : System :=
  match s.pc with
  | .watchFirst => { s.watchFile with pc := .readFirst }
  | .readFirst => if s.fileWd = none then { s with pc := .poll } else s.readFile
  | .poll =>
    if s.queue = [] then s
    else
      { s with
        pc := .event
        buffer := s.queue.take (count + 1)
        queue := s.queue.drop (count + 1) }
  | .event =>
    match s.buffer with
    | [] => { s with pc := .poll }
    | e :: rest => { s with buffer := rest }.handle e
  | .readFile => s.readFile
  | .fcloseNull => s

/-! ### Interleavings -/

inductive Step where
  | op (o : Op)
  | run (count : ℕ)

def System.step (s : System) : Step → System
  | .op o => s.op o
  | .run count => s.run count

/-- The program has added its watch of the directory; the name is taken by a file
with some text, or free. -/
def System.init (file : Option (List UInt8 × Access)) : System where
  file := file.map fun _ => 0
  seen := 1
  contents := fun _ => (file.map Prod.fst).getD []
  access := fun _ => (file.map Prod.snd).getD .opens
  watches := []
  nextWd := dirWd + 1
  queue := []
  pc := .watchFirst
  buffer := []
  fileWd := none
  oldLine := []
  printed := []

end KeepalivedDevel.InotifyFile
