import CudaOpenMp.Server.ReadCommandCore

/-!
Executable model of what `process_requests` in `server.c` does with one message: the calls on the log
file and on the socket, in order.
-/

namespace CudaOpenMp.Server

def maxBuff : Nat := 1000

def ascii (text : String) : Bytes := text.toList.map fun c => UInt8.ofNat c.toNat

def decimal (v : Int) : Bytes := ascii (if v < 0 then "-" else "") ++ ascii (Nat.repr v.natAbs)

/-- One call of a worker. `chunk` is a `send` in the loop over a file, that ends the loop when it
fails; `spin` is a loop that does not end, and `undefined` is undefined behaviour. -/
inductive Call where
  | fputs (line : Bytes)
  | send (bytes : Bytes)
  | chunk (bytes : Bytes)
  | close
  | shutdown
  | spin
  | undefined
deriving DecidableEq

/-- `sprintf` into an array of `MAXBUFF` characters, and what follows it. -/
def sprintf (text : Bytes) (next : List Call) : List Call :=
  if text.length < maxBuff then next else [.undefined]

def protocol (code : Int) (str : String) : Bytes :=
  ascii "HTTP/1.1 " ++ decimal code ++ ascii " " ++ ascii str

def headerLine (request_id : Int32) (protocol : Bytes) : Bytes :=
  decimal request_id.toInt ++ ascii " " ++ protocol ++ ascii "\n"

def header (code : Int) (str : String) (time : Bytes) (count : Int32) : Bytes :=
  protocol code str ++ ascii "\nDate: " ++ time ++
    ascii "\nConnection: close\nContent-Type: text/html; charset=utf-8\nContent-Length: " ++
    decimal count.toInt ++ ascii "\n\n"

def sendHeader (code : Int) (str : String) (time : Bytes) (count request_id : Int32)
    (closeClient : Bool) : List Call :=
  sprintf (protocol code str) <| sprintf (headerLine request_id (protocol code str)) <|
    .fputs (headerLine request_id (protocol code str)) ::
      sprintf (header code str time count)
        (.send (header code str time count) :: if closeClient then [.close] else [])

/-- What a name in the file system stands for. A directory can be opened, but not read. -/
inductive Entry where
  | file (content : Bytes)
  | directory (size : Nat)

def Entry.st_size : Entry → Nat
  | .file content => content.length
  | .directory size => size

/-- `fgets` with room for so many characters: the line, whether the end of the file was hit, and what
is left of the file. -/
def fgets : Nat → Bytes → Bytes × Bool × Bytes
  | 0, rest => ([], false, rest)
  | _ + 1, [] => ([], true, [])
  | room + 1, c :: rest =>
    if c = 10 then ([c], false, rest)
    else (c :: (fgets room rest).1, (fgets room rest).2.1, (fgets room rest).2.2)

theorem fgets_split (room : Nat) (rest : Bytes) :
    (fgets room rest).1 ++ (fgets room rest).2.2 = rest := by
  induction room generalizing rest with
  | zero => rfl
  | succ room ih =>
      cases rest with
      | nil => rfl
      | cons c rest =>
          rw [fgets]
          split
          · rfl
          · simpa using ih rest

theorem fgets_length {room : Nat} {rest : Bytes} (some : (fgets room rest).1 ≠ []) :
    (fgets room rest).2.2.length < rest.length := by
  have split := congrArg List.length (fgets_split room rest)
  rw [List.length_append] at split
  have filled := List.length_pos_iff.mpr some
  omega

/-- The loop of `process_GET`: what `strlen` finds in each line. -/
def sendFile (rest : Bytes) : List Call :=
  if _line : (fgets 99 rest).1 = [] then []
  else .chunk (cText (fgets 99 rest).1) ::
    if (fgets 99 rest).2.1 then [] else sendFile (fgets 99 rest).2.2
termination_by rest.length
decreasing_by exact fgets_length ‹_›

/-- What a worker knows when it has received a message. -/
structure Request where
  thread_index : Int
  request_id : Int32
  buff : Bytes
  timestamp : Bytes

variable (files : Bytes → Option Entry)

namespace Request

variable (r : Request)

def processGET (tok1 : Bytes) : List Call :=
  match files (tok1.drop 1) with
  | none => sendHeader 404 "Not Found" r.timestamp 0 r.request_id false ++ [.shutdown]
  | some (.file content) =>
    sendHeader 200 "OK" r.timestamp (Int32.ofNat content.length) r.request_id false ++
      sendFile content ++ [.shutdown]
  | some (.directory size) =>
    sendHeader 200 "OK" r.timestamp (Int32.ofNat size) r.request_id false ++ [.spin]

def processHEAD (tok1 : Bytes) : List Call :=
  match files (tok1.drop 1) with
  | none => sendHeader 404 "Not Found" r.timestamp 0 r.request_id false ++ [.shutdown]
  | some entry =>
    sendHeader 200 "OK" r.timestamp (Int32.ofNat entry.st_size) r.request_id false ++ [.shutdown]

def optionsHeader (time : Bytes) : Bytes :=
  ascii "HTTP/1.1 200 OK\nDate: " ++ time ++
    ascii "\nConnection: close\nAllow: OPTIONS, GET, HEAD, TRACE\nContent-Length: 0\n\n"

def processOPTIONS : List Call :=
  sprintf (ascii "HTTP/1.1 200 OK") <| sprintf (headerLine r.request_id (ascii "HTTP/1.1 200 OK")) <|
    .fputs (headerLine r.request_id (ascii "HTTP/1.1 200 OK")) ::
      sprintf (optionsHeader r.timestamp) [.send (optionsHeader r.timestamp), .shutdown]

def processTRACE : List Call :=
  sendHeader 200 "OK" r.timestamp (Int32.ofNat (cText r.buff).length) r.request_id false ++
    [.send (cText r.buff), .shutdown]

def badRequest : List Call :=
  sendHeader 400 "Bad Request" r.timestamp 0 r.request_id true ++ [.shutdown]

def dispatch (tok0 tok1 : Bytes) : List Call :=
  if tok0 = ascii "GET" then r.processGET files tok1
  else if tok0 = ascii "HEAD" then r.processHEAD files tok1
  else if tok0 = ascii "OPTIONS" then r.processOPTIONS
  else if tok0 = ascii "TRACE" then r.processTRACE
  else sendHeader 501 "Not Implemented" r.timestamp 0 r.request_id false ++ [.shutdown]

/-- What is done once both lines are in the log. Null pointers and blocks without a string lead to
undefined behaviour when they are read. -/
def answer (n : Command) (tok0 : Bytes) (read : Bool) : List Call :=
  match n.string 1 with
  | some (some tok1) =>
    if tok1.head? ≠ some 47 then r.badRequest
    else match n.string 2 with
      | some (some tok2) =>
        if tok2 ≠ ascii "HTTP/1.1" then r.badRequest
        else if read = false then r.badRequest
        else r.dispatch files tok0 tok1 ++ [.fputs (ascii "\n")]
      | _ => [.undefined]
  | _ => [.undefined]

def firstLine : Bytes :=
  decimal r.request_id.toInt ++ ascii " " ++ decimal r.thread_index ++ ascii " " ++ r.timestamp ++
    ascii "\n"

def secondLine (tok0 tok1 tok2 : Bytes) : Bytes :=
  decimal r.request_id.toInt ++ ascii " " ++ tok0 ++ ascii " " ++ tok1 ++ ascii " " ++ tok2 ++
    ascii "\n"

end Request

/-- `%s`; a null pointer is printed as `(null)`. -/
def Command.printed (n : Command) (t : Nat) : Option Bytes := (n.string t).getD (some (ascii "(null)"))

/-- The body of the loop in `process_requests` from the time stamp on. -/
def Request.handle (r : Request) : List Call :=
  sprintf r.firstLine <| .fputs r.firstLine ::
    match readCommand r.buff with
    | none => [.undefined]
    | some (n, read) =>
      match n.printed 0, n.printed 1, n.printed 2 with
      | some tok0, some tok1, some tok2 =>
        sprintf (r.secondLine tok0 tok1 tok2) <| .fputs (r.secondLine tok0 tok1 tok2) ::
          r.answer files n tok0 read
      | _, _, _ => [.undefined]

end CudaOpenMp.Server
