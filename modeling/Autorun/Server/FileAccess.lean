namespace Autorun.Server

/-- `horizon_file_map_access`: the generic rights as file rights. -/
def fileMapAccess (access : BitVec 32) : BitVec 32 :=
  let mapped := access &&& ~~~0xf0000000#32
  let mapped := if access &&& 0x80000000#32 ≠ 0 then mapped ||| 0x00120089#32 else mapped
  let mapped := if access &&& 0x40000000#32 ≠ 0 then mapped ||| 0x00120116#32 else mapped
  let mapped := if access &&& 0x20000000#32 ≠ 0 then mapped ||| 0x001200a0#32 else mapped
  if access &&& 0x10000000#32 ≠ 0 then mapped ||| 0x001f01ff#32 else mapped

/-- The data accesses a sharing mode speaks of. -/
inductive Use
  | read
  | write
  | delete
deriving DecidableEq

/-- The access bits that make the use: `READ_DATA | EXECUTE`, `WRITE_DATA | APPEND_DATA`, `DELETE`. -/
def Use.mask : Use → BitVec 32
  | .read => 0x0021#32
  | .write => 0x0006#32
  | .delete => 0x00010000#32

/-- The `FILE_SHARE_*` bit that allows it to others. -/
def Use.bit : Use → Nat
  | .read => 0
  | .write => 1
  | .delete => 2

def uses (access : BitVec 32) (u : Use) : Bool := access &&& u.mask != 0

def shares (sharing : BitVec 32) (u : Use) : Bool := sharing &&& BitVec.twoPow 32 u.bit != 0

def fileSharingViolation (existingAccess existingSharing access sharing : BitVec 32) : Bool :=
  if (uses access .read && !shares existingSharing .read) ||
      (uses access .write && !shares existingSharing .write) ||
      (uses access .delete && !shares existingSharing .delete) then true
  else if access &&& (Use.mask .read ||| Use.mask .write ||| Use.mask .delete) = 0 then false
  else
    (uses existingAccess .read && !shares sharing .read) ||
      (uses existingAccess .write && !shares sharing .write) ||
      (uses existingAccess .delete && !shares sharing .delete)

/-- A NUL-terminated unix name, without its NUL. -/
abbrev UnixPath := List UInt8

def slash : UInt8 := 47

/-- A slash before a slash or before the end of the name. -/
def skipSlashes : UnixPath → UnixPath
  | c :: rest =>
    if c = slash ∧ (rest.head? = some slash ∨ rest = []) then skipSlashes rest else c :: rest
  | [] => []

def lowerAscii (c : UInt8) : UInt8 := if 65 ≤ c ∧ c ≤ 90 then c + 32 else c

/-- `horizon_unix_path_equal`, one turn of its loop for each unit of fuel. -/
def unixPathEqualLoop : (fuel : Nat) → UnixPath → UnixPath → Bool
  | 0, _, _ => false
  | fuel + 1, a, b =>
    match skipSlashes a, skipSlashes b with
    | [], [] => true
    | ca :: a, cb :: b => lowerAscii ca == lowerAscii cb && unixPathEqualLoop fuel a b
    | _, _ => false

/-- Each turn but the last takes a character of `a`. -/
def unixPathEqual (a b : UnixPath) : Bool := unixPathEqualLoop (a.length + 1) a b

inductive FileStatus
  | accessDenied
  | invalidParameter
  | noMemory
  | sharingViolation
  | fileIsADirectory
  | objectNameCollision
  /-- `horizon_server_errno_status`. -/
  | errno (error : Nat)
deriving DecidableEq

/-- `enum` of the create dispositions. -/
inductive Disposition
  | supersede
  | openExisting
  | create
  | openIf
  | overwrite
  | overwriteIf
deriving DecidableEq

/-- The `open` flags: the access mode and what a disposition adds. -/
structure OpenFlags where
  read : Bool
  write : Bool
  append : Bool
  creat : Bool := false
  excl : Bool := false
  trunc : Bool := false
deriving DecidableEq

def fileAccessMode (access : BitVec 32) : OpenFlags :=
  let mapped := fileMapAccess access
  let write := mapped &&& 6#32 != 0
  -- a mode without writing is `O_RDONLY`, whether reading was asked for or not
  { read := mapped &&& 1#32 != 0 || !write
    write
    append := mapped &&& 4#32 != 0 && mapped &&& 2#32 == 0 }

/-- What `horizon_create_file_request` asks, with the name behind its attributes. `none` is a
disposition the server does not know. -/
structure CreateFile where
  access : BitVec 32
  sharing : BitVec 32
  options : BitVec 32
  create : Option Disposition
  filename : UnixPath
deriving DecidableEq

def fileOpenFlags (r : CreateFile) : Except FileStatus OpenFlags :=
  let flags := fileAccessMode r.access
  match r.create with
  | some .create => .ok { flags with creat := true, excl := true }
  | some .openExisting => .ok flags
  | some .openIf => .ok { flags with creat := true }
  | some .overwrite => .ok { flags with trunc := true }
  | some .overwriteIf | some .supersede => .ok { flags with creat := true, trunc := true }
  | none => .error .invalidParameter

def directoryOpenStatus (options : BitVec 32) (flags : OpenFlags) : Option FileStatus :=
  if options &&& 0x00000040#32 ≠ 0 then some .fileIsADirectory
  else if flags.excl ∨ flags.trunc then some .objectNameCollision
  else none

/-- The file half of `struct horizon_server_object`. `fd` is `none` for -1. -/
structure FileObject where
  fd : Option Nat
  name : UnixPath
  access : BitVec 32
  options : BitVec 32
  isDir : Bool
  sharing : BitVec 32
  shared : Bool
deriving DecidableEq

structure FileHandle where
  handle : Nat
  object : FileObject
deriving DecidableEq

/-- Where a `create_file` is, between two times it holds the server's lock or asks the file system. -/
inductive Stage
  /-- The sharing modes have been checked, `open` comes next. -/
  | opening (flags : OpenFlags)
  /-- The file or directory is there, its handle comes next. -/
  | registering (fd : Option Nat) (isDir : Bool)
deriving DecidableEq

structure Creation where
  tid : Nat
  request : CreateFile
  stage : Stage
deriving DecidableEq

structure Files where
  handles : List FileHandle := []
  nextHandle : Nat := 1
  creations : List Creation := []
  replies : List (Nat × Except FileStatus Nat) := []

/-- The handles the check of a path looks at. -/
def FileObject.opens (f : FileObject) (path : UnixPath) : Bool :=
  f.shared && f.fd.isSome && unixPathEqual f.name path

def joinModes (path : UnixPath) (modes : BitVec 32 × BitVec 32) (h : FileHandle) :
    BitVec 32 × BitVec 32 :=
  if h.object.opens path then (modes.1 ||| h.object.access, modes.2 &&& h.object.sharing) else modes

/-- The loop of `create_file` over the handles: what they use and what they all share. -/
def existingModes (handles : List FileHandle) (path : UnixPath) : BitVec 32 × BitVec 32 :=
  handles.foldl (joinModes path) (0, 7)

/-- The check of `create_file` for a file. -/
def checkSharing (handles : List FileHandle) (r : CreateFile) : Except FileStatus Unit :=
  let (existingAccess, existingSharing) := existingModes handles r.filename
  if fileSharingViolation existingAccess existingSharing (fileMapAccess r.access) r.sharing then
    .error .sharingViolation
  else .ok ()

/-- What the calls `create_file` makes before it opens a file answer: the parser of the object
attributes, `malloc`, and for a directory `mkdir`, `opendir` and `strdup`. -/
structure BeginAnswers where
  attributes : Option FileStatus := none
  malloc : Bool := true
  mkdir : Option (Nat × Bool) := none
  opendir : Option Nat := none
  strdup : Bool := true

/-- `create_file` up to its `open`. `mkdir` fails with an error number, and whether it is
`EEXIST`. -/
def createFileBegin (handles : List FileHandle) (r : CreateFile) (answers : BeginAnswers) :
    Except FileStatus Stage := do
  if r.options &&& 0x00001000#32 ≠ 0 ∧ fileMapAccess r.access &&& 0x00010000#32 = 0 then
    throw .accessDenied
  match answers.attributes with
  | some error => throw error
  | none => pure ()
  if r.filename = [] then throw .invalidParameter
  if !answers.malloc then throw .noMemory
  let isDir := r.options &&& 0x00000001#32 ≠ 0
  if isDir ∧ r.options &&& 0x00000040#32 ≠ 0 then throw .invalidParameter
  let flags ← fileOpenFlags r
  if isDir then
    match flags.creat, answers.mkdir with
    | true, some (error, exists?) =>
      if !exists? ∨ flags.excl then throw (.errno error)
    | _, _ => pure ()
    match answers.opendir with
    | some error => throw (.errno error)
    | none => if answers.strdup then pure (.registering none true) else throw .noMemory
  else
    checkSharing handles r
    pure (.opening flags)

/-- What `open` answers, and the calls after it. -/
inductive OpenAnswer
  | opened (fd : Nat) (strdup : Bool)
  /-- The error number, whether it is `EEXIST`, whether `opendir` accepts the path, whether the
  SD card refused as busy, whether `strdup` has memory. -/
  | failed (error : Nat) (exists? opendir busy strdup : Bool)

/-- The `open` of `create_file`. -/
def createFileOpen (r : CreateFile) (flags : OpenFlags) : OpenAnswer → Except FileStatus Stage
  | .opened fd strdup => if strdup then .ok (.registering (some fd) false) else .error .noMemory
  | .failed error exists? opendir busy strdup =>
    if !exists? ∧ opendir then
      match directoryOpenStatus r.options flags with
      | some status => .error status
      | none => if strdup then .ok (.registering none true) else .error .noMemory
    else if busy then .error .sharingViolation
    else .error (.errno error)

/-- The object `create_file` registers. -/
def fileObject (r : CreateFile) (fd : Option Nat) (isDir : Bool) : FileObject :=
  { fd, name := r.filename, access := fileMapAccess r.access, options := r.options, isDir,
    sharing := r.sharing, shared := !isDir }

/-- One stretch of a server thread: up to the check, the `open`, the registration, or
`horizon_server_close_object_handle`. -/
inductive FileAction
  | begin (tid : Nat) (r : CreateFile) (answers : BeginAnswers)
  | opened (tid : Nat) (answer : OpenAnswer)
  | register (tid : Nat) (memory : Bool)
  | close (handle : Nat)

def Files.creation? (s : Files) (tid : Nat) : Option Creation :=
  s.creations.find? (·.tid = tid)

/-- The thread goes on from a stage, or answers with an error. -/
def Files.proceed (s : Files) (tid : Nat) (r : CreateFile) (rest : List Creation) :
    Except FileStatus Stage → Files
  | .ok stage => { s with creations := ⟨tid, r, stage⟩ :: rest }
  | .error status => { s with creations := rest, replies := (tid, .error status) :: s.replies }

def Files.others (s : Files) (tid : Nat) : List Creation := s.creations.filter (·.tid ≠ tid)

/-- A thread handles one request at a time, its stretches one after the other. -/
def Files.step (s : Files) : FileAction → Files
  | .begin tid r answers =>
    match s.creation? tid with
    | none => s.proceed tid r s.creations (createFileBegin s.handles r answers)
    | some _ => s
  | .opened tid answer =>
    match s.creation? tid with
    | some ⟨_, r, .opening flags⟩ => s.proceed tid r (s.others tid) (createFileOpen r flags answer)
    | _ => s
  | .register tid memory =>
    match s.creation? tid with
    | some ⟨_, r, .registering fd isDir⟩ =>
      if memory then
        { s with
          handles := ⟨s.nextHandle, fileObject r fd isDir⟩ :: s.handles
          nextHandle := s.nextHandle + 1
          creations := s.others tid
          replies := (tid, .ok s.nextHandle) :: s.replies }
      else
        { s with creations := s.others tid, replies := (tid, .error .noMemory) :: s.replies }
    | _ => s
  | .close handle => { s with handles := s.handles.filter (·.handle ≠ handle) }

end Autorun.Server
