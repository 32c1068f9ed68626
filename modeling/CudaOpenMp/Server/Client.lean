import CudaOpenMp.Server.Requests

/-!
Executable model of `client.c`, and what comes back to it when the whole message is received at once.
-/

namespace CudaOpenMp.Server

open Words

/-- `fgets(buff, MAXBUFF, stdin)` with `MAXBUFF = 250`, as a C string, and the rest of the input. -/
def readLine (stdin : Bytes) : Option (Bytes × Bytes) :=
  if (fgets 249 stdin).1 = [] then none else some (cText (fgets 249 stdin).1, (fgets 249 stdin).2.2)

/-- The request line and the host line in an array of `MAXBUFF` characters. -/
def clientMessage (stdin : Bytes) : Option Bytes := do
  let request ← readLine stdin
  let host ← readLine request.2
  if (request.1 ++ host.1).length < 250 then return request.1 ++ host.1 else none

/-- What is printed when `recv` returns these pieces, one after the other. -/
def clientPrints (pieces : List Bytes) : Bytes := pieces.flatMap cText

theorem fgets_line {line rest : Bytes} {room : Nat} (inside : 10 ∉ line) (fits : line.length < room) :
    fgets room (line ++ 10 :: rest) = (line ++ [10], false, rest) := by
  induction line generalizing room with
  | nil =>
      obtain ⟨room, rfl⟩ : ∃ fewer, room = fewer + 1 := ⟨room - 1, by simp at fits; omega⟩
      rfl
  | cons c line ih =>
      obtain ⟨room, rfl⟩ : ∃ fewer, room = fewer + 1 := ⟨room - 1, by simp at fits; omega⟩
      have other : c ≠ 10 := by
        rintro rfl
        exact inside (by simp)
      rw [List.cons_append, fgets, if_neg other, ih (fun member => inside (by simp [member]))
        (by simpa using fits)]
      rfl

theorem readLine_line {line rest : Bytes} (inside : 10 ∉ line) (zeros : 0 ∉ line)
    (fits : line.length < 249) : readLine (line ++ 10 :: rest) = some (line ++ [10], rest) := by
  have clean : 0 ∉ line ++ [10] := by simp [zeros]
  rw [readLine, fgets_line inside fits, if_neg (by simp), cText_of_zeros clean]

theorem clientMessage_lines {request host rest : Bytes} (requestLine : 10 ∉ request)
    (requestZeros : 0 ∉ request) (hostLine : 10 ∉ host) (hostZeros : 0 ∉ host)
    (fits : request.length + host.length < 248) :
    clientMessage (request ++ 10 :: (host ++ 10 :: rest)) = some (request ++ 10 :: (host ++ [10])) := by
  rw [clientMessage, readLine_line requestLine requestZeros (by omega)]
  simp only [Option.bind_eq_bind, Option.bind_some, readLine_line hostLine hostZeros (show _ < 249 by omega)]
  have length : (request ++ [10] ++ (host ++ [10])).length < 250 := by
    simp only [List.length_append, List.length_singleton]
    omega
  rw [if_pos length, List.append_assoc]
  rfl

theorem clientPrints_flatten {pieces : List Bytes} (zeros : 0 ∉ pieces.flatten) :
    clientPrints pieces = pieces.flatten := by
  induction pieces with
  | nil => rfl
  | cons piece pieces ih =>
      rw [List.flatten_cons, List.mem_append, not_or] at zeros
      rw [clientPrints, List.flatMap_cons, ← clientPrints, ih zeros.2, cText_of_zeros zeros.1,
        List.flatten_cons]

theorem zero_notMem_decimal (v : Int) : 0 ∉ decimal v := by
  rw [decimal, List.mem_append, not_or]
  constructor
  · split <;> decide
  · intro member
    obtain ⟨c, digit, zero⟩ := List.mem_map.mp member
    rw [Nat.toList_repr] at digit
    have range := Char.isDigit_iff_toNat.mp (Nat.isDigit_of_mem_toDigits (by decide) (by decide) digit)
    have lower : '0'.toNat = 48 := rfl
    have upper : '9'.toNat = 57 := rfl
    have value := congrArg UInt8.toNat zero
    rw [UInt8.toNat_ofNat'] at value
    change c.toNat % 256 = 0 at value
    omega

theorem zero_notMem_header {time : Bytes} (count : Int32) (zeros : 0 ∉ time) :
    0 ∉ header 200 "OK" time count := by
  have digits := zero_notMem_decimal
  have words : 0 ∉ ascii "HTTP/1.1 " ∧ 0 ∉ ascii " " ∧ 0 ∉ ascii "OK" ∧ 0 ∉ ascii "\nDate: " ∧
      0 ∉ ascii "\n\n" ∧ 0 ∉ ascii
        "\nConnection: close\nContent-Type: text/html; charset=utf-8\nContent-Length: " := by
    decide
  simp only [header, protocol, List.mem_append, not_or]
  exact ⟨⟨⟨⟨⟨⟨⟨⟨words.1, digits _⟩, words.2.1⟩, words.2.2.1⟩, words.2.2.2.1⟩, zeros⟩,
    words.2.2.2.2.2⟩, digits _⟩, words.2.2.2.2.1⟩

/-! The request of a client. -/

def getLine (path : Bytes) : Bytes := ascii "GET /" ++ path ++ ascii " HTTP/1.1"

theorem closed_getLine {path : Bytes} (rest : Bytes) (solid : ∀ c ∈ path, isspace c = false) :
    closed isspace (getLine path ++ 10 :: rest) =
      ascii "GET" :: (47 :: path) :: ascii "HTTP/1.1" :: closed isspace rest := by
  have split : getLine path ++ 10 :: rest =
      ascii "GET" ++ 32 :: ((47 :: path) ++ 32 :: (ascii "HTTP/1.1" ++ 10 :: rest)) := by
    have request : ascii "GET /" = ascii "GET" ++ [32, 47] := rfl
    have version : ascii " HTTP/1.1" = 32 :: ascii "HTTP/1.1" := rfl
    rw [getLine, request, version]
    simp
  have slash : ∀ c ∈ 47 :: path, isspace c = false := by
    intro c member
    rcases List.mem_cons.mp member with rfl | later
    · rfl
    · exact solid c later
  rw [split, closed_word (by simp [ascii, isspace]) (by decide) rfl, closed_word slash (by simp) rfl,
    closed_word (by simp [ascii, isspace]) (by decide) rfl]

theorem notMem_getLine {path : Bytes} {c : UInt8} (first : c ∉ ascii "GET /") (inside : c ∉ path)
    (last : c ∉ ascii " HTTP/1.1") : c ∉ getLine path := by
  rw [getLine, List.mem_append, List.mem_append, not_or, not_or]
  exact ⟨⟨first, inside⟩, last⟩

theorem getLine_length (path : Bytes) : (getLine path).length = path.length + 14 := by
  have words : (ascii "GET /").length = 5 ∧ (ascii " HTTP/1.1").length = 9 := ⟨rfl, rfl⟩
  rw [getLine, List.length_append, List.length_append, words.1, words.2]
  omega

theorem sends_get (files : Bytes → Option Entry) (r : Request) {path rest : Bytes}
    (clock : r.timestamp.length < 30) (index : r.thread_index.natAbs < 10 ^ 10)
    (message : r.buff = getLine path ++ 10 :: rest) (zeros : 0 ∉ r.buff)
    (short : r.buff.length < 900) (solid : ∀ c ∈ path, isspace c = false)
    (newline : r.buff.getLast? = some 10) :
    sends (r.handle files) = sends (r.processGET files (47 :: path)) := by
  have text : cText r.buff = r.buff := cText_of_zeros zeros
  have shape := closed_getLine rest solid
  rw [← message, ← text] at shape
  have line : (r.secondLine (ascii "GET") (47 :: path) (ascii "HTTP/1.1")).length < maxBuff := by
    have id := decimal_int32_length r.request_id
    have length := getLine_length path
    have whole := congrArg List.length message
    rw [List.length_append, List.length_cons, length] at whole
    have words : " ".toList.length = 1 ∧ "\n".toList.length = 1 ∧ "GET".toList.length = 3 ∧
        "HTTP/1.1".toList.length = 8 := ⟨rfl, rfl, rfl, rfl⟩
    simp only [Request.secondLine, List.length_append, List.length_cons, ascii_length, words.1,
      words.2.1, words.2.2.1, words.2.2.2, maxBuff]
    omega
  rw [handle_words (by omega) clock index shape, sprintf_eq line,
    if_pos ⟨rfl, rfl, by rw [text, newline]⟩, Request.dispatch, if_pos rfl, sends, sends,
    sends_append, sends, sends, List.append_nil]

/-- A client that asks for a file prints the file behind a header, in whatever pieces it receives
them. -/
theorem client_prints_file (files : Bytes → Option Entry) (thread_index : Int) (request_id : Int32)
    (timestamp path host rest content : Bytes) (index : thread_index.natAbs < 10 ^ 10)
    (clock : timestamp.length < 30) (timeZeros : 0 ∉ timestamp)
    (solid : ∀ c ∈ path, isspace c = false) (pathZeros : 0 ∉ path) (hostLine : 10 ∉ host)
    (hostZeros : 0 ∉ host) (fits : path.length + host.length < 234)
    (found : files path = some (.file content)) (clean : 0 ∉ content) :
    ∃ message, clientMessage (getLine path ++ 10 :: (host ++ 10 :: rest)) = some message ∧
      ∀ pieces, pieces.flatten =
          sends (Request.handle files ⟨thread_index, request_id, message, timestamp⟩) →
        clientPrints pieces =
          header 200 "OK" timestamp (Int32.ofNat content.length) ++ content := by
  have pathLine : 10 ∉ path := by
    intro member
    cases solid 10 member
  have length := getLine_length path
  have requestZeros : 0 ∉ getLine path := notMem_getLine (by decide) pathZeros (by decide)
  refine ⟨_, clientMessage_lines (notMem_getLine (by decide) pathLine (by decide)) requestZeros hostLine
    hostZeros (by omega), ?_⟩
  intro pieces whole
  have messageZeros : 0 ∉ getLine path ++ 10 :: (host ++ [10]) := by
    simp [requestZeros, hostZeros]
  have newline : (getLine path ++ 10 :: (host ++ [10])).getLast? = some 10 := by
    rw [← List.cons_append, ← List.append_assoc, List.getLast?_concat]
  have sent := sends_get files
    ⟨thread_index, request_id, getLine path ++ 10 :: (host ++ [10]), timestamp⟩ clock index rfl
    messageZeros (by
      simp only [List.length_append, List.length_cons, List.length_nil, length]
      omega) solid newline
  rw [sends_processGET_file clock found, (sendFile_length content).2.2 clean] at sent
  have zeros : 0 ∉ pieces.flatten := by
    rw [whole, sent, List.mem_append, not_or]
    exact ⟨zero_notMem_header _ timeZeros, clean⟩
  rw [clientPrints_flatten zeros, whole, sent]

theorem client_prints_file_hi : ∃ message,
    clientMessage (getLine [97] ++ 10 :: (ascii "Host: h" ++ [10])) = some message ∧
      clientPrints [sends (Request.handle (fun _ => some (.file [104, 105])) ⟨0, 0, message, []⟩)] =
        header 200 "OK" [] 2 ++ [104, 105] := by
  obtain ⟨message, built, prints⟩ := client_prints_file (fun _ => some (.file [104, 105])) 0 0 [] [97]
    (ascii "Host: h") [] [104, 105] (by decide) (by decide) (by decide) (by simp [isspace]) (by decide)
    (by decide) (by decide) (by decide) rfl (by decide)
  exact ⟨message, built, prints _ (List.append_nil _)⟩

end CudaOpenMp.Server
