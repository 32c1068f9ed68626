import CudaOpenMp.Server.ReadCommand
import CudaOpenMp.Server.ResponseCore
import Mathlib.Tactic.NormNum

/-!
What a message leads to: when the worker gets through it without undefined behaviour, and what it
sends.
-/

namespace CudaOpenMp.Server

open Words

theorem ascii_length (text : String) : (ascii text).length = text.toList.length := by
  rw [ascii, List.length_map]

theorem decimal_length {v : Int} (small : v.natAbs < 10 ^ 10) : (decimal v).length ≤ 11 := by
  have digits : (Nat.toDigits 10 v.natAbs).length ≤ 10 :=
    (Nat.length_toDigits_le_iff (by decide) (by decide)).mpr small
  rw [decimal, List.length_append, ascii_length, ascii_length, Nat.toList_repr]
  split
  · have one : "-".toList.length = 1 := rfl
    omega
  · have none : "".toList.length = 0 := rfl
    omega

theorem decimal_int32_length (v : Int32) : (decimal v.toInt).length ≤ 11 := by
  apply decimal_length
  have lower := v.le_toInt
  have upper := v.toInt_lt
  norm_num
  omega

theorem sprintf_eq {text : Bytes} {next : List Call} (fits : text.length < maxBuff) :
    sprintf text next = next := if_pos fits

structure IsStatus (code : Int) (str : String) : Prop where
  code : code.natAbs < 10 ^ 10
  str : str.toList.length ≤ 15

theorem protocol_length {code : Int} {str : String} (status : IsStatus code str) :
    (protocol code str).length ≤ 36 := by
  have digits := decimal_length status.code
  have phrase := status.str
  have words : "HTTP/1.1 ".toList.length = 9 ∧ " ".toList.length = 1 := ⟨rfl, rfl⟩
  simp only [protocol, List.length_append, ascii_length, words.1, words.2]
  omega

theorem headerLine_length {protocol : Bytes} (id : Int32) (short : protocol.length ≤ 36) :
    (headerLine id protocol).length ≤ 49 := by
  have digits := decimal_int32_length id
  have words : " ".toList.length = 1 ∧ "\n".toList.length = 1 := ⟨rfl, rfl⟩
  simp only [headerLine, List.length_append, ascii_length, words.1, words.2]
  omega

theorem sendHeader_eq {code : Int} {str : String} {time : Bytes} (count id : Int32)
    (closeClient : Bool) (status : IsStatus code str) (clock : time.length < 30) :
    sendHeader code str time count id closeClient =
      .fputs (headerLine id (protocol code str)) :: .send (header code str time count) ::
        if closeClient then [.close] else [] := by
  have short := protocol_length status
  have line := headerLine_length id short
  have digits := decimal_int32_length count
  have whole : (header code str time count).length < maxBuff := by
    have words : "\nDate: ".toList.length = 7 ∧ "\n\n".toList.length = 2 ∧
        "\nConnection: close\nContent-Type: text/html; charset=utf-8\nContent-Length: ".toList.length =
          74 := ⟨rfl, rfl, rfl⟩
    simp only [header, List.length_append, ascii_length, words.1, words.2.1, words.2.2, maxBuff]
    omega
  rw [sendHeader, sprintf_eq (by simp only [maxBuff]; omega),
    sprintf_eq (by simp only [maxBuff]; omega), sprintf_eq whole]

/-! The lines of a file. -/

theorem fgets_eof {room : Nat} {rest : Bytes} (eof : (fgets room rest).2.1 = true) :
    (fgets room rest).2.2 = [] := by
  induction room generalizing rest with
  | zero => cases eof
  | succ room ih =>
      cases rest with
      | nil => rfl
      | cons c rest =>
          rw [fgets] at eof ⊢
          split at eof
          · cases eof
          · next more =>
            rw [if_neg more]
            exact ih eof

theorem fgets_nil_iff {room : Nat} {rest : Bytes} : (fgets (room + 1) rest).1 = [] ↔ rest = [] := by
  cases rest with
  | nil => simp [fgets]
  | cons c rest =>
      rw [fgets]
      split <;> simp

/-- The bytes that a list of calls sends, when none of them fails. -/
def sends : List Call → Bytes
  | [] => []
  | .send bytes :: rest => bytes ++ sends rest
  | .chunk bytes :: rest => bytes ++ sends rest
  | .fputs _ :: rest | .close :: rest | .shutdown :: rest | .spin :: rest | .undefined :: rest =>
    sends rest

theorem sends_append (calls more : List Call) : sends (calls ++ more) = sends calls ++ sends more := by
  induction calls with
  | nil => rfl
  | cons call calls ih => cases call <;> simp [sends, ih]

theorem cText_eq_iff (line : Bytes) : (cText line).length = line.length ↔ 0 ∉ line := by
  constructor
  · intro same zero
    have whole : cText line = line := (List.takeWhile_prefix _).eq_of_length same
    rw [← whole] at zero
    exact zero_notMem_cText line zero
  · intro zeros
    rw [cText, List.takeWhile_eq_self_iff.mpr]
    intro c member
    simp only [ne_eq, decide_eq_true_eq]
    rintro rfl
    exact zeros member

theorem cText_of_zeros {line : Bytes} (zeros : 0 ∉ line) : cText line = line :=
  (List.takeWhile_prefix _).eq_of_length ((cText_eq_iff line).mpr zeros)

/-- A file arrives whole exactly when it has no zero byte. -/
theorem sendFile_length (content : Bytes) :
    (sends (sendFile content)).length ≤ content.length ∧
      ((sends (sendFile content)).length = content.length ↔ 0 ∉ content) ∧
      (0 ∉ content → sends (sendFile content) = content) := by
  induction content using sendFile.induct with
  | case1 content blank =>
      have empty := fgets_nil_iff.mp blank
      rw [sendFile, dif_pos blank, empty]
      simp [sends]
  | case2 content line ih =>
      have split := fgets_split 99 content
      have lengths := congrArg List.length split
      rw [List.length_append] at lengths
      have short := cText_length_le (fgets 99 content).1
      have whole := cText_eq_iff (fgets 99 content).1
      have zeros : 0 ∉ content ↔ 0 ∉ (fgets 99 content).1 ∧ 0 ∉ (fgets 99 content).2.2 := by
        rw [← split, List.mem_append, split, not_or]
      rw [sendFile, dif_neg line]
      by_cases eof : (fgets 99 content).2.1 = true
      · have last := fgets_eof eof
        rw [last, List.length_nil] at lengths
        rw [last] at split zeros
        rw [if_pos eof, sends, sends, List.append_nil, zeros]
        refine ⟨by omega, ?_, fun clean => ?_⟩
        · rw [← whole]
          simp only [List.not_mem_nil, not_false_eq_true, and_true]
          omega
        · rw [cText_of_zeros clean.1]
          simpa using split
      · obtain ⟨bound, exact', equal⟩ := ih
        rw [if_neg eof, sends, List.length_append, zeros, ← whole, ← exact']
        refine ⟨by omega, by omega, fun clean => ?_⟩
        rw [cText_of_zeros (whole.mp clean.1), equal (exact'.mp clean.2)]
        exact split

/-! The five answers. -/

theorem isStatus_ok : IsStatus 200 "OK" := ⟨by decide, by decide⟩
theorem isStatus_badRequest : IsStatus 400 "Bad Request" := ⟨by decide, by decide⟩
theorem isStatus_notFound : IsStatus 404 "Not Found" := ⟨by decide, by decide⟩
theorem isStatus_notImplemented : IsStatus 501 "Not Implemented" := ⟨by decide, by decide⟩

def opening (id : Int32) (protocol header : Bytes) : List Call :=
  [.fputs (headerLine id protocol), .send header]

theorem sendHeader_open {code : Int} {str : String} {time : Bytes} (count id : Int32)
    (status : IsStatus code str) (clock : time.length < 30) :
    sendHeader code str time count id false =
      opening id (protocol code str) (header code str time count) :=
  sendHeader_eq count id false status clock

section
variable {files : Bytes → Option Entry} {r : Request} {tok0 tok1 : Bytes}

theorem processOPTIONS_eq (clock : r.timestamp.length < 30) :
    r.processOPTIONS = opening r.request_id (ascii "HTTP/1.1 200 OK")
      (Request.optionsHeader r.timestamp) ++ [.shutdown] := by
  have words : (ascii "HTTP/1.1 200 OK").length = 15 := rfl
  have line := headerLine_length r.request_id (show (ascii "HTTP/1.1 200 OK").length ≤ 36 by omega)
  have whole : (Request.optionsHeader r.timestamp).length < maxBuff := by
    have parts : "HTTP/1.1 200 OK\nDate: ".toList.length = 22 ∧
        "\nConnection: close\nAllow: OPTIONS, GET, HEAD, TRACE\nContent-Length: 0\n\n".toList.length =
          71 := ⟨rfl, rfl⟩
    simp only [Request.optionsHeader, List.length_append, ascii_length, parts.1, parts.2, maxBuff]
    omega
  rw [Request.processOPTIONS, sprintf_eq (by simp only [maxBuff]; omega),
    sprintf_eq (by simp only [maxBuff]; omega), sprintf_eq whole]
  rfl

theorem badRequest_eq (clock : r.timestamp.length < 30) :
    r.badRequest = opening r.request_id (protocol 400 "Bad Request")
      (header 400 "Bad Request" r.timestamp 0) ++ [.close, .shutdown] := by
  rw [Request.badRequest, sendHeader_eq 0 r.request_id true isStatus_badRequest clock]
  rfl

def Call.isSend : Call → Bool
  | .send _ | .chunk _ => true
  | .fputs _ | .close | .shutdown | .spin | .undefined => false

/-- What the methods have in common: a header, what else is sent, and the end. -/
inductive Served (id : Int32) : List Call → Prop
  | calls {protocol header : Bytes} {body : List Call} {last : Call} :
      (∀ call ∈ body, call.isSend = true) → last = .shutdown ∨ last = .spin →
        Served id (opening id protocol header ++ body ++ [last])

theorem Served.plain {id : Int32} {protocol header : Bytes} {last : Call}
    (ended : last = .shutdown ∨ last = .spin) : Served id (opening id protocol header ++ [last]) := by
  have served : Served id (opening id protocol header ++ [] ++ [last]) := .calls nofun ended
  rwa [List.append_nil] at served

theorem sendFile_isSend (content : Bytes) : ∀ call ∈ sendFile content, call.isSend = true := by
  induction content using sendFile.induct with
  | case1 content blank =>
      rw [sendFile, dif_pos blank]
      nofun
  | case2 content line ih =>
      rw [sendFile, dif_neg line]
      intro call member
      rcases List.mem_cons.mp member with rfl | later
      · rfl
      · split at later
        · cases later
        · exact ih call later

theorem processGET_served (clock : r.timestamp.length < 30) :
    Served r.request_id (r.processGET files tok1) := by
  rw [Request.processGET]
  split
  · rw [sendHeader_open _ _ isStatus_notFound clock]
    exact .plain (.inl rfl)
  · next content _ =>
    rw [sendHeader_open _ _ isStatus_ok clock]
    exact .calls (sendFile_isSend content) (.inl rfl)
  · rw [sendHeader_open _ _ isStatus_ok clock]
    exact .plain (.inr rfl)

theorem processHEAD_served (clock : r.timestamp.length < 30) :
    Served r.request_id (r.processHEAD files tok1) := by
  rw [Request.processHEAD]
  split
  · rw [sendHeader_open _ _ isStatus_notFound clock]
    exact .plain (.inl rfl)
  · rw [sendHeader_open _ _ isStatus_ok clock]
    exact .plain (.inl rfl)

theorem processTRACE_served (clock : r.timestamp.length < 30) :
    Served r.request_id r.processTRACE := by
  rw [Request.processTRACE, sendHeader_open _ _ isStatus_ok clock]
  have served : Served r.request_id (opening r.request_id (protocol 200 "OK")
      (header 200 "OK" r.timestamp (Int32.ofNat (cText r.buff).length)) ++
        [.send (cText r.buff)] ++ [.shutdown]) := by
    refine .calls (fun call member => ?_) (.inl rfl)
    rw [List.mem_singleton.mp member]
    rfl
  exact served

theorem dispatch_served (clock : r.timestamp.length < 30) :
    Served r.request_id (r.dispatch files tok0 tok1) := by
  rw [Request.dispatch]
  split
  · exact processGET_served clock
  · split
    · exact processHEAD_served clock
    · split
      · rw [processOPTIONS_eq clock]
        exact .plain (.inl rfl)
      · split
        · exact processTRACE_served clock
        · rw [sendHeader_open _ _ isStatus_notImplemented clock]
          exact .plain (.inl rfl)

theorem Served.undefined_notMem {id : Int32} {calls : List Call} (served : Served id calls) :
    .undefined ∉ calls := by
  cases served with
  | calls sending ended =>
      intro member
      rcases List.mem_append.mp member with front | last
      · rcases List.mem_append.mp front with first | more
        · simp [opening] at first
        · cases sending _ more
      · rw [← List.mem_singleton.mp last] at ended
        rcases ended with ended | ended <;> cases ended

theorem sends_processGET_file {content : Bytes} (clock : r.timestamp.length < 30)
    (found : files (tok1.drop 1) = some (.file content)) :
    sends (r.processGET files tok1) =
      header 200 "OK" r.timestamp (Int32.ofNat content.length) ++ sends (sendFile content) := by
  simp only [Request.processGET, found, sendHeader_open _ _ isStatus_ok clock, sends_append]
  simp [opening, sends]

theorem sends_processHEAD_file {content : Bytes} (clock : r.timestamp.length < 30)
    (found : files (tok1.drop 1) = some (.file content)) :
    sends (r.processHEAD files tok1) = header 200 "OK" r.timestamp (Int32.ofNat content.length) := by
  simp only [Request.processHEAD, found, sendHeader_open _ _ isStatus_ok clock, sends_append,
    Entry.st_size]
  simp [opening, sends]

/-- `GET` answers with what `HEAD` answers and the file; a directory is never finished. -/
theorem get_delivers (files : Bytes → Option Entry) (r : Request) (tok1 : Bytes)
    (clock : r.timestamp.length < 30) :
    ∃ body, sends (r.processGET files tok1) = sends (r.processHEAD files tok1) ++ body ∧
      (files (tok1.drop 1) = none → body = []) ∧
      (∀ size, files (tok1.drop 1) = some (.directory size) →
        body = [] ∧ .spin ∈ r.processGET files tok1) ∧
      ∀ content, files (tok1.drop 1) = some (.file content) →
        sends (r.processHEAD files tok1) =
          header 200 "OK" r.timestamp (Int32.ofNat content.length) ∧
        body.length ≤ content.length ∧ (body.length = content.length ↔ 0 ∉ content) ∧
        (content.length < 2 ^ 31 →
          ((body.length : Int) = (Int32.ofNat content.length).toInt ↔ 0 ∉ content)) ∧
        (0 ∉ content → body = content) := by
  cases found : files (tok1.drop 1) with
  | none =>
      refine ⟨[], ?_, fun _ => rfl, nofun, nofun⟩
      simp only [Request.processGET, Request.processHEAD, found, List.append_nil]
  | some entry =>
      cases entry with
      | directory size =>
          refine ⟨[], ?_, nofun, fun _ _ => ⟨rfl, ?_⟩, nofun⟩
          · simp only [Request.processGET, Request.processHEAD, found, sends_append, sends,
              Entry.st_size, List.append_nil]
          · simp only [Request.processGET, found, List.mem_append, List.mem_singleton, or_true]
      | file content =>
          obtain ⟨bound, exact', equal⟩ := sendFile_length content
          have head := sends_processHEAD_file clock found
          refine ⟨sends (sendFile content), ?_, nofun, nofun, ?_⟩
          · rw [sends_processGET_file clock found, head]
          · intro other same
            obtain rfl : content = other := by simpa using same
            refine ⟨head, bound, exact', fun small => ?_, equal⟩
            rw [Int32.toInt_ofNat_of_lt small, Int.ofNat_inj, exact']

theorem get_delivers_hi : ∃ body,
    sends (Request.processGET (fun _ => some (.file [104, 105])) ⟨0, 0, [], []⟩ [47]) =
      sends (Request.processHEAD (fun _ => some (.file [104, 105])) ⟨0, 0, [], []⟩ [47]) ++ body ∧
        body = [104, 105] := by
  obtain ⟨body, same, _, _, delivered⟩ :=
    get_delivers (fun _ => some (.file [104, 105])) ⟨0, 0, [], []⟩ [47] (by decide)
  exact ⟨body, same, (delivered [104, 105] rfl).2.2.2.2 (by decide)⟩

/-- The calls for one message: lines for the log, and one of three ways to go on. -/
inductive Script (r : Request) : List Call → Prop
  | undefined : Script r [.undefined]
  | badRequest : Script r r.badRequest
  | served {calls : List Call} : Served r.request_id calls →
      Script r (calls ++ [.fputs (ascii "\n")])
  | line {line : Bytes} {calls : List Call} : Script r calls → Script r (.fputs line :: calls)

theorem Script.sprintf {text : Bytes} {calls : List Call} (script : Script r calls) :
    Script r (sprintf text calls) := by
  rw [Server.sprintf]
  split
  · exact script
  · exact .undefined

theorem answer_script (clock : r.timestamp.length < 30) (n : Command) (read : Bool) :
    Script r (r.answer files n tok0 read) := by
  rw [Request.answer]
  split
  · split
    · exact .badRequest
    · split
      · split
        · exact .badRequest
        · split
          · exact .badRequest
          · exact .served (dispatch_served clock)
      · exact .undefined
  · exact .undefined

theorem handle_script (files : Bytes → Option Entry) (r : Request) (clock : r.timestamp.length < 30) :
    Script r (r.handle files) := by
  rw [Request.handle]
  apply Script.sprintf
  apply Script.line
  split
  · exact .undefined
  · split
    · exact (answer_script clock _ _).line.sprintf
    · exact .undefined

end

end CudaOpenMp.Server
