import Manvi.Encoding.Space

/-! The reader of a server-sent event stream: reads of any size are put into lines that end in LF, a
window of a buffer at a time, and lines into events. -/
namespace Manvi.Transport
open Manvi.Encoding

def lf : UInt8 := 10

def cr : UInt8 := 13

def utf8BOM : Bytes := [0xEF,0xBB,0xBF]

/-- How many reads in a row may bring nothing. -/
def maxEmptyReads : ℕ := 100

def maxFrameBytes : ℕ := 32*2^20

def maxEventBytes : ℕ := maxFrameBytes

/-- The read buffer behind every stream. -/
def sseReaderSize : ℕ := 2^20

inductive ReadError where
  | eof
  | noProgress
  | bufferFull
  | oversizedFrame
  | oversizedEvent
  deriving Repr, DecidableEq

/-- A body as a list of what its reads return, room permitting; the last of them may come with the
end. -/
structure Source where
  reads : List Bytes
  eofWithLast : Bool
  deriving Repr, DecidableEq

/-- A read into so much room; what does not fit stays for the next. -/
def takeRead (room : ℕ) : List Bytes → Bytes × List Bytes
  | [] => ([],[])
  | r :: rest => if r.length ≤ room then (r,rest) else (r.take room,r.drop room :: rest)

def Source.read (room : ℕ) (s : Source) : Bytes × Option ReadError × Source :=
  if s.reads = [] then ([],some .eof,s)
  else
    let t := takeRead room s.reads
    (t.1,if t.2.isEmpty && s.eofWithLast then some .eof else none,⟨t.2,s.eofWithLast⟩)

structure PayloadReader where
  src : Source
  bomDecided : Bool
  skipLF : Bool
  deriving Repr, DecidableEq

/-- Read on while what has arrived is a proper beginning of the mark. A read that fills the room
ends this, for the mark has room. -/
def gatherBOM (room : ℕ) (eofWithLast : Bool) :
    List Bytes → ℕ → Bytes → Option ReadError → Bytes × Option ReadError × List Bytes
  | [],_,p,err =>
    if p.length < utf8BOM.length ∧ err = none ∧ p = utf8BOM.take p.length then (p,some .eof,[])
      else (p,err,[])
  | r :: rest,empty,p,err =>
    if p.length < utf8BOM.length ∧ err = none ∧ p = utf8BOM.take p.length then
      if room-p.length < r.length then
        (p ++ r.take (room-p.length),none,r.drop (room-p.length) :: rest)
      else
        let err := if rest.isEmpty && eofWithLast then some .eof else none
        if r ≠ [] then gatherBOM room eofWithLast rest 0 (p ++ r) err
        else if err ≠ none then (p,err,rest)
        else if empty+1 ≥ maxEmptyReads then (p,some .noProgress,rest)
        else gatherBOM room eofWithLast rest (empty+1) p none
    else (p,err,r :: rest)

/-- Rewrite a bare CR as LF. One that ends the chunk becomes LF, and the LF that may open the next
chunk is dropped. -/
def scanCR : Bytes → Bytes × Bool
  | [] => ([],false)
  | c :: rest =>
    if c = cr then
      match rest with
      | [] => ([lf],true)
      | d :: rest' =>
        if d = lf then
          let r := scanCR rest'
          (cr :: lf :: r.1,r.2)
        else
          let r := scanCR (d :: rest')
          (lf :: r.1,r.2)
    else
      let r := scanCR rest
      (c :: r.1,r.2)

def endLines (skipLF : Bool) (p : Bytes) : Bytes × Bool :=
  if p = [] then ([],skipLF)
  else if skipLF ∧ p.head? = some lf then scanCR p.tail
  else scanCR p

namespace PayloadReader

/-- Judge the first bytes of the stream, read into so much room. -/
def dropBOM (room : ℕ) (r : PayloadReader) (p : Bytes) (err : Option ReadError) :
    Bytes × Option ReadError × PayloadReader :=
  if room < utf8BOM.length then (p,err,{ r with bomDecided := true })
  else
    let g := gatherBOM room r.src.eofWithLast r.src.reads 0 p err
    (if utf8BOM.isPrefixOf g.1 then g.1.drop utf8BOM.length else g.1,g.2.1,
      { r with src := ⟨g.2.2,r.src.eofWithLast⟩, bomDecided := true })

/-- One read of the body, put into lines that end in LF. -/
def readOnce (room : ℕ) (r : PayloadReader) : Bytes × Option ReadError × PayloadReader :=
  let first := r.src.read room
  let r := { r with src := first.2.2 }
  let judged := if !r.bomDecided && first.1 ≠ [] then r.dropBOM room first.1 first.2.1
    else (first.1,first.2.1,r)
  let ended := endLines judged.2.2.skipLF judged.1
  (ended.1,judged.2.1,{ judged.2.2 with skipLF := ended.2 })

/-- Read until something arrives, for so many reads. -/
def tryRead (room : ℕ) : ℕ → PayloadReader → Bytes × Option ReadError × PayloadReader
  | 0,r => ([],some .noProgress,r)
  | tries+1,r =>
    let once := r.readOnce room
    if once.1 ≠ [] ∨ once.2.1 ≠ none then once else tryRead room tries once.2.2

def read (room : ℕ) (r : PayloadReader) : Bytes × Option ReadError × PayloadReader :=
  if room = 0 then ([],none,r) else tryRead room maxEmptyReads r

end PayloadReader

structure Event where
  name : Bytes
  data : Bytes
  deriving Repr, DecidableEq

/-- A reader of events: the body, what is buffered of it and not yet given, and the error that ended
it. -/
structure SSE where
  reader : PayloadReader
  buffer : Bytes
  pending : Option ReadError
  done : Bytes
  err : Option ReadError
  doneSeen : Bool
  deriving Repr, DecidableEq

def newSSE (src : Source) (done : Bytes) : SSE := ⟨⟨src,false,false⟩,[],none,done,none,false⟩

/-- A text up to and with its first LF, and the rest. -/
def cutLF : Bytes → Option (Bytes × Bytes)
  | [] => none
  | c :: cs => if c = lf then some ([c],cs) else (cutLF cs).map (fun r => (c :: r.1,r.2))

namespace SSE

/-- Fill the buffer until it holds a line, the body has ended or it is full. -/
def readSlice : ℕ → SSE → Bytes × Option ReadError × SSE
  | fuel,s => match cutLF s.buffer with
    | some (line,rest) => (line,none,{ s with buffer := rest })
    | none => match s.pending with
      | some e => (s.buffer,some e,{ s with buffer := [], pending := none })
      | none =>
        if sseReaderSize ≤ s.buffer.length then (s.buffer,some .bufferFull,{ s with buffer := [] })
        else match fuel with
          | 0 => (s.buffer,some .noProgress,s)
          | fuel+1 =>
            let r := s.reader.read (sseReaderSize-s.buffer.length)
            readSlice fuel { s with reader := r.2.2, buffer := s.buffer ++ r.1, pending := r.2.1 }

/-- Read on from what has been read of a line, in so many windows. -/
def readLineFrom : ℕ → Bytes → SSE → Bytes × Option ReadError × SSE
  | 0,_,s => ([],some .noProgress,s)
  | windows+1,line,s =>
    let r := readSlice (sseReaderSize+2) s
    if line.length+r.1.length > maxFrameBytes then ([],some .oversizedFrame,r.2.2)
    else if r.2.1 = some .bufferFull then readLineFrom windows (line ++ r.1) r.2.2
    else (line ++ r.1,r.2.1,r.2.2)

/-- The next line with its end, bounded in size. The bound is met after so many windows. -/
def readLine (s : SSE) : Bytes × Option ReadError × SSE :=
  readLineFrom (maxFrameBytes/sseReaderSize+2) [] s

def isDone (s : SSE) (data : Bytes) : Bool := s.done ≠ [] && trimSpace data = s.done

def settle (s : SSE) (e : ReadError) : Except ReadError Event × SSE :=
  (.error e,{ s with err := some e })

/-- The event that a blank line or the end of the body completes. -/
def dispatch (s : SSE) (event : Event) : Except ReadError Event × SSE :=
  if s.isDone event.data then (.error .eof,{ s with err := some .eof, doneSeen := true })
    else (.ok event,s)

end SSE

/-- Cut CR and LF off the end of a line. -/
def trimEnding (line : Bytes) : Bytes :=
  (line.reverse.dropWhile (fun c => c = cr || c = lf)).reverse

def colon : UInt8 := 58

/-- A line's field and value, without the one space that may open the value. -/
def cutField (line : Bytes) : Bytes × Bytes :=
  let field := line.takeWhile (· ≠ colon)
  let value := (line.dropWhile (· ≠ colon)).drop 1
  (field,if value.head? = some 32 then value.tail else value)

/-- The text "event". -/
def eventField : Bytes := [101,118,101,110,116]

/-- The text "data". -/
def dataField : Bytes := [100,97,116,97]

/-- Read a line's field into an event, unless its data grow too large. -/
def readField (event : Event) (line : Bytes) : Except ReadError Event :=
  let f := cutField line
  if f.1 = eventField then .ok { event with name := f.2 }
  else if f.1 = dataField then
    let grown := if event.data = [] then f.2 else event.data ++ lf :: f.2
    if grown.length > maxEventBytes then .error .oversizedEvent else .ok { event with
      data := grown }
  else .ok event

/-- Read lines into an event until one is complete. -/
def nextFrom : ℕ → SSE → Event → Except ReadError Event × SSE
  | 0,s,_ => s.settle .noProgress
  | fuel+1,s,event =>
    let r := s.readLine
    let s := r.2.2
    if r.1 = [] ∧ r.2.1 ≠ none then
      if r.2.1 = some .eof ∧ event.data ≠ [] then s.dispatch event
      else s.settle (r.2.1.getD .eof)
    else
      let trimmed := trimEnding r.1
      if trimmed = [] then
        if event.data = [] ∧ event.name = [] then nextFrom fuel s event else s.dispatch event
      else if trimmed.head? = some colon then nextFrom fuel s event
      else match readField event trimmed with
        | .error e => s.settle e
        | .ok event => match r.2.1 with
          | none => nextFrom fuel s event
          | some e =>
            if e = .eof ∧ (event.data ≠ [] ∨ event.name ≠ []) then
              { s with err := some .eof }.dispatch event
            else s.settle e

/-- Bytes that are still to be read, with room for the end. -/
def SSE.fuel (s : SSE) : ℕ := s.buffer.length+s.reader.src.reads.flatten.length+2

/-- The next event, or what ended the stream. -/
def SSE.next (s : SSE) : Except ReadError Event × SSE :=
  match s.err with
  | some e => (.error e,s)
  | none => nextFrom s.fuel s ⟨[],[]⟩

/-- What repeated calls give: the events, and the error that ends them. -/
def eventsFrom : ℕ → SSE → List Event × ReadError
  | 0,_ => ([],.noProgress)
  | fuel+1,s => match s.next with
    | (.error e,_) => ([],e)
    | (.ok event,s) =>
      let rest := eventsFrom fuel s
      (event :: rest.1,rest.2)

def SSE.events (s : SSE) : List Event × ReadError := eventsFrom s.fuel s

end Manvi.Transport
