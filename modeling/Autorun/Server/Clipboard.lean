namespace Autorun.Server.Clip

/-- An `unsigned int`. -/
abbrev Word := BitVec 32

def cfText : Word := 1

def cfBitmap : Word := 2

def cfMetafilePict : Word := 3

def cfOemText : Word := 7

def cfDib : Word := 8

def cfUnicodeText : Word := 13

def cfEnhMetafile : Word := 14

def cfLocale : Word := 16

def cfDibV5 : Word := 17

def cfMax : Word := 18

/-- The `HORIZON_CLIP_STATUS_` values, and the handlers' 0xc0010578 for a window that is not there. -/
inductive Status where
  | success
  | pending
  | bufferOverflow
  | invalidParameter
  | noMemory
  | invalidLockSequence
  | bufferTooSmall
  | objectNameNotFound
  | invalidOwner
  | notOpen
  | invalidWindow
deriving DecidableEq

/-- `struct horizon_clip_format`; `source` is its `from`. -/
structure Format where
  id : Word
  source : Word := 0
  seqno : Word := 0
  size : Word := 0
  data : Option (List UInt8) := none
deriving DecidableEq

/-- `struct horizon_clipboard`. -/
structure Clipboard where
  openTid : Word := 0
  openWin : Word := 0
  owner : Word := 0
  viewer : Word := 0
  lcid : Word := 0
  seqno : Word := 0
  openSeqno : Word := 0
  rendering : Word := 0
  formats : List Format := []
  formatCount : Word := 0
  formatMap : Word := 0
  listeners : List Word := []
deriving DecidableEq

/-- Which allocations succeed: one for data, one for each format. -/
structure Memory where
  data : Bool := true
  format : Word → Bool := fun _ => true

def has (map id : Word) : Bool := map.getLsbD id.toNat

def getFormat (clip : Clipboard) (id : Word) : Option Format := clip.formats.find? (·.id = id)

/-- `horizon_clip_add_format`, with what the caller then fills in. -/
def addFormat (clip : Clipboard) (format : Format) : Clipboard :=
  { clip with
    formats := clip.formats ++ [format]
    formatCount := clip.formatCount + 1
    formatMap := if format.id < cfMax then clip.formatMap ||| 1#32 <<< format.id.toNat else clip.formatMap }

def freeFormats (clip : Clipboard) : Clipboard :=
  { clip with formats := [], formatCount := 0, formatMap := 0 }

/-- The table of `horizon_clip_synthesize`: a format and what it is made from. -/
def synthesized : List (Word × Word × Word) :=
  [(cfText, cfOemText, cfUnicodeText),
   (cfOemText, cfUnicodeText, cfText),
   (cfUnicodeText, cfText, cfOemText),
   (cfMetafilePict, cfEnhMetafile, 0),
   (cfEnhMetafile, cfMetafilePict, 0),
   (cfBitmap, cfDib, cfDibV5),
   (cfDib, cfBitmap, cfDibV5),
   (cfDibV5, cfBitmap, cfDib)]

/-- What a format of the table is made from, by the formats that were there at the start. -/
def sourceOf (map : Word) (entry : Word × Word × Word) : Option Word :=
  if has map entry.1 then none
  else if has map entry.2.1 then some entry.2.1
  else if entry.2.2 ≠ 0 ∧ has map entry.2.2 then some entry.2.2
  else none

/-- The bytes of a word in memory. -/
def wordBytes (x : Word) : List UInt8 :=
  [0, 8, 16, 24].map fun i => UInt8.ofBitVec (x.extractLsb' i 8)

/-- The first step of `horizon_clip_synthesize`: text gets a locale. -/
def addLocale (memory : Memory) (clip : Clipboard) : Clipboard :=
  let map := clip.formatMap
  if !has map cfLocale && (has map cfText || has map cfOemText || has map cfUnicodeText) &&
      memory.data && memory.format cfLocale then
    let clip' := addFormat clip
      { id := cfLocale, seqno := clip.seqno, size := 4, data := some (wordBytes clip.lcid) }
    { clip' with seqno := clip.seqno + 1 }
  else clip

/-- One turn of the loop of `horizon_clip_synthesize`, with the formats added so far. -/
def synthesizeOne (memory : Memory) (map : Word) (r : Word × Clipboard) (entry : Word × Word × Word) :
    Word × Clipboard :=
  match sourceOf map entry with
  | none => r
  | some source =>
    if memory.format entry.1 then
      (r.1 + 1, addFormat r.2 { id := entry.1, source, seqno := r.2.seqno })
    else r

def synthesize (memory : Memory) (clip : Clipboard) : Word × Clipboard :=
  synthesized.foldl (synthesizeOne memory clip.formatMap) (0, addLocale memory clip)

/-- `horizon_clip_close_locked`: whether the listeners should be told, and the viewer. -/
def closeLocked (memory : Memory) (clip : Clipboard) : (Bool × Word) × Clipboard :=
  let clip := { clip with openWin := 0, openTid := 0 }
  if clip.seqno = clip.openSeqno then ((false, 0), clip)
  else
    let (total, clip) := synthesize memory clip
    let clip := if total ≠ 0 then { clip with seqno := clip.seqno + 1 } else clip
    ((true, clip.viewer), clip)

/-- The loop of `horizon_clip_release_locked` over the formats left: those that stay, the map and the
number of the others. -/
def releaseLoop (map : Word) : List Format → List Format × Word × Nat
  | [] => ([], map, 0)
  | format :: rest =>
    if format.data.isSome ∨ (format.source ≠ 0 ∧ has map format.source) then
      let (kept, map, dropped) := releaseLoop map rest
      (format :: kept, map, dropped)
    else
      let map := if format.id < cfMax then map &&& ~~~(1#32 <<< format.id.toNat) else map
      let (kept, map, dropped) := releaseLoop map rest
      (kept, map, dropped + 1)

def releaseLocked (clip : Clipboard) : (Bool × Word) × Clipboard :=
  let (formats, formatMap, dropped) := releaseLoop clip.formatMap clip.formats
  let clip := { clip with
    owner := 0, formats, formatMap, formatCount := clip.formatCount - BitVec.ofNat 32 dropped }
  if dropped = 0 then ((false, 0), clip)
  else ((true, clip.viewer), { clip with seqno := clip.seqno + 1 })

/-- `horizon_clip_open`. -/
def openClip (clip : Clipboard) (tid win : Word) : Status × Word × Clipboard :=
  if clip.openTid ≠ 0 ∧ clip.openWin ≠ win then (.invalidLockSequence, 0, clip)
  else
    let clip := if clip.openTid = 0 then { clip with openSeqno := clip.seqno } else clip
    let clip := if clip.openTid ≠ tid then { clip with rendering := 0 } else clip
    (.success, clip.owner, { clip with openWin := win, openTid := tid })

def empty (clip : Clipboard) (tid : Word) : Status × Clipboard :=
  if clip.openTid ≠ tid then (.notOpen, clip)
  else (.success, { freeFormats clip with owner := clip.openWin, seqno := clip.seqno + 1 })

/-- The format with that id gets new contents. -/
def replaceFormat (format : Format) : List Format → List Format
  | [] => []
  | f :: fs => if f.id = format.id then format :: fs else f :: replaceFormat format fs

/-- `horizon_clip_set_data`; no data is a format that is rendered when it is asked for. -/
def setData (memory : Memory) (clip : Clipboard) (id lcid : Word) (data : List UInt8) :
    Status × Word × Clipboard :=
  if id = 0 ∨ clip.openTid = 0 then (.notOpen, 0, clip)
  else if data ≠ [] ∧ memory.data = false then (.noMemory, 0, clip)
  else
    let format : Format :=
      { id, seqno := clip.seqno, size := BitVec.ofNat 32 data.length
        data := if data = [] then none else some data }
    let stored :=
      match getFormat clip id with
      | some _ => some { clip with formats := replaceFormat format clip.formats }
      | none => if memory.format id then some (addFormat clip format) else none
    match stored with
    | none => (.noMemory, 0, clip)
    | some clip =>
      let clip := if clip.rendering = 0 then { clip with seqno := clip.seqno + 1 } else clip
      let clip :=
        if id = cfText ∨ id = cfOemText ∨ id = cfUnicodeText then { clip with lcid } else clip
      (.success, format.seqno, clip)

/-- `struct horizon_clip_data_reply`. -/
structure DataReply where
  source : Word := 0
  owner : Word := 0
  seqno : Word := 0
  total : Word := 0
  data : Option (List UInt8) := none

/-- The end of `horizon_clip_get_data`, which counts one rendering less. -/
def doneRendering (clip : Clipboard) (render : Bool) : Clipboard :=
  if render = false ∧ clip.rendering ≠ 0 then { clip with rendering := clip.rendering - 1 } else clip

def getData (clip : Clipboard) (tid id : Word) (render cached : Bool) (seqno replyMax : Word) :
    Status × DataReply × Clipboard :=
  if clip.openTid ≠ tid then (.notOpen, {}, clip)
  else
    match getFormat clip id with
    | none => (.objectNameNotFound, {}, doneRendering clip render)
    | some format =>
      let reply : DataReply :=
        { source := format.source, total := format.size, seqno := format.seqno, owner := clip.owner }
      if format.data.isNone ∧ render then
        (.success, reply, if format.source ≠ 0 ∨ clip.owner ≠ 0 then
          { clip with rendering := clip.rendering + 1 } else clip)
      else if cached ∧ seqno = format.seqno then (.success, reply, doneRendering clip render)
      else if format.data.isSome ∧ format.size > replyMax then (.bufferOverflow, reply, clip)
      else (.success, { reply with data := format.data }, doneRendering clip render)

def addListener (memory : Memory) (clip : Clipboard) (win : Word) : Status × Clipboard :=
  if win ∈ clip.listeners then (.invalidParameter, clip)
  else if memory.data then (.success, { clip with listeners := clip.listeners ++ [win] })
  else (.noMemory, clip)

def removeListener (clip : Clipboard) (win : Word) : Bool × Clipboard :=
  (win ∈ clip.listeners, { clip with listeners := clip.listeners.erase win })

def setViewer (clip : Clipboard) (viewer previous : Word) : Status × Word × Word × Clipboard :=
  if previous ≠ 0 ∧ clip.viewer ≠ previous then (.pending, clip.viewer, clip.owner, clip)
  else (.success, clip.viewer, clip.owner, { clip with viewer })

def windowDestroyed (memory : Memory) (clip : Clipboard) (win : Word) : Bool × Clipboard :=
  let clip := (removeListener clip win).2
  let clip := if clip.viewer = win then { clip with viewer := 0 } else clip
  let (told, clip) :=
    if clip.owner = win then ((releaseLocked clip).1.1, (releaseLocked clip).2) else (false, clip)
  if clip.openWin = win ∧ clip.openTid ≠ 0 then
    (told || (closeLocked memory clip).1.1, (closeLocked memory clip).2)
  else (told, clip)

def threadEnded (memory : Memory) (clip : Clipboard) (tid : Word) : Bool × Clipboard :=
  if tid = 0 ∨ clip.openTid ≠ tid then (false, clip)
  else ((closeLocked memory clip).1.1, (closeLocked memory clip).2)

/-- `horizon_clip_enum`. -/
def enumFormats (clip : Clipboard) (tid previous : Word) : Status × Word :=
  if clip.openTid ≠ tid then (.notOpen, 0)
  else
    let formats := if previous = 0 then clip.formats else (clip.formats.dropWhile (·.id ≠ previous)).tail
    (.success, (formats.head?.map (·.id)).getD 0)

/-- What a thread gets that asks on until it gets 0; `none` if it asks more often than `turns`. -/
def enumerate (clip : Clipboard) (tid : Word) : (turns : Nat) → (previous : Word) → Option (List Word)
  | 0, _ => none
  | turns + 1, previous =>
    let next := (enumFormats clip tid previous).2
    if next = 0 then some [] else (enumerate clip tid turns next).map (next :: ·)

/-- What comes to the clipboard of the server, each under its lock: the requests of
`horizon_server_handle_clipboard` with their thread, and the end of windows and threads. No window has the
handle 0; `known` is whether the window of a request is there. -/
inductive Op where
  | openClip (tid win : Word) (known : Bool)
  | close (tid : Word) (memory : Memory)
  | empty (tid : Word)
  | setData (tid id lcid : Word) (data : List UInt8) (memory : Memory)
  | getData (tid id : Word) (render cached : Bool) (seqno replyMax : Word)
  | release (win : Word) (known : Bool)
  | setViewer (viewer previous : Word)
  | addListener (win : Word) (memory : Memory)
  | removeListener (win : Word)
  | windowDestroyed (win : Word) (memory : Memory)
  | threadEnded (tid : Word) (memory : Memory)

/-- Whether the request is that of the owner's window to release the clipboard, or the owner is
destroyed. -/
def Op.Releases (clip : Clipboard) : Op → Prop
  | .release win known => known = true ∧ win ≠ 0 ∧ clip.owner = win
  | .windowDestroyed win _ => win ≠ 0 ∧ clip.owner = win
  | _ => False

/-- One operation on the clipboard. -/
def step (clip : Clipboard) : Op → Clipboard
  | .openClip tid win known => if win ≠ 0 ∧ known = false then clip else (Clip.openClip clip tid win).2.2
  | .close tid memory => if clip.openTid ≠ tid then clip else (closeLocked memory clip).2
  | .empty tid => (Clip.empty clip tid).2
  | .setData _ id lcid data memory => (Clip.setData memory clip id lcid data).2.2
  | .getData tid id render cached seqno replyMax =>
    (Clip.getData clip tid id render cached seqno replyMax).2.2
  | .release win known =>
    if known = false ∨ win = 0 ∨ clip.owner ≠ win then clip else (releaseLocked clip).2
  | .setViewer viewer previous => (Clip.setViewer clip viewer previous).2.2.2
  | .addListener win memory => (Clip.addListener memory clip win).2
  | .removeListener win => (Clip.removeListener clip win).2
  | .windowDestroyed win memory => if win = 0 then clip else (Clip.windowDestroyed memory clip win).2
  | .threadEnded tid memory => (Clip.threadEnded memory clip tid).2

end Autorun.Server.Clip
