import Mathlib.Algebra.Order.Ring.Int
import Mathlib.Data.List.Basic

/-!
# `http_download_base`: a download over connections that get lost

A lost connection is opened again and asked for the range from the first byte that is missing.
The server answers every request with the requested range and its length, as far as the resource
has it.
-/
namespace P2Streaming

/-- What is downloaded. Sums of two positions fit into an `int64_t`. -/
structure Resource where
  bytes : List UInt8
  nonempty : 0<bytes.length
  addressable : bytes.length<2^62

/-- The bytes that are asked for: all of them, or those of `set_range`. -/
inductive DownloadTarget (length : ℕ) where
  | whole
  | range (first last : ℕ) (ordered : first≤last) (inside : last<length)

/-- What `on_header` reads of a response. -/
structure DownloadResponse where
  status : ℕ
  location : Option String
  contentLength : ℤ

/-- `http_download_base`. The range header `bytes=%d-%d` is the pair of its two numbers. -/
structure HttpDownload where
  status : ℤ
  contentLength : ℤ
  recvdLen : ℕ
  startPos : ℤ
  iniStartPos : ℤ
  endPos : ℤ
  strrange : Option (ℤ × ℤ)
  downloadAll : Bool
  redirected : Option String
  failures : ℕ
  stopped : Bool
  /-- The buffers passed to `write`, one after the other. -/
  written : List UInt8

namespace HttpDownload

/-- The constructor; `end_pos_` is not initialised. -/
def create (endPos : ℤ) : HttpDownload where
  status := 0
  contentLength := -1
  recvdLen := 0
  startPos := 0
  iniStartPos := 0
  endPos := endPos
  strrange := none
  downloadAll := true
  redirected := none
  failures := 0
  stopped := false
  written := []

variable (d : HttpDownload)

def setRange (first last : ℤ) : HttpDownload :=
  { d with
    downloadAll := false
    startPos := first
    iniStartPos := first
    endPos := last
    recvdLen := 0
    contentLength := last - first + 1
    strrange := some (first, last) }

def stop : HttpDownload := { d with stopped := true }

def failedDown : HttpDownload := { d with failures := d.failures + 1 }

def redirect (url : String) : HttpDownload := { d with redirected := some url }

def onDisconnected : HttpDownload :=
  if d.status<100 ∧ d.contentLength ≠ -1 then
    let startPos := d.endPos - d.contentLength + 1 + d.recvdLen
    { d with startPos := startPos, strrange := some (startPos, d.endPos) }
  else d.stop

/-- The part of `on_header` behind the check of the status. -/
def takeLength (contentLength : ℤ) : HttpDownload :=
  let d := { d with contentLength := contentLength }
  let d :=
    if d.downloadAll ∧ d.startPos=0 then
      if 0<contentLength then { d with strrange := some (d.startPos, contentLength), endPos :=
        contentLength }
      else { d with strrange := none }
    else d
  if contentLength < d.endPos - d.startPos ∧ contentLength ≠ -1 then
    { d with endPos := d.startPos+contentLength, strrange := some (d.startPos,
      d.startPos + contentLength) }
  else if contentLength=0 then d.failedDown
  else d

def onHeader (response : DownloadResponse) : HttpDownload :=
  if 300 ≤ response.status ∧ response.status≤307 then
    match response.location with
    | none => d.failedDown
    | some url => (if url = "" ∨ url.back = '/' then d.failedDown else d).redirect url
  else if response.status≠200 ∧ response.status≠206 then d.failedDown
  else d.takeLength response.contentLength

/-- `static_cast<int>(recvd_len_ * 100 / content_length_)`, with the product in 64 bits and the
result in 32. -/
def percent (recvdLen : ℕ) (contentLength : ℤ) : ℤ :=
  (BitVec.ofNat 32 (recvdLen * 100 % 2^64 / (contentLength % 2^64).toNat)).toInt

/-- The `status_` that `on_data` computes. -/
def newStatus (recvdLen : ℕ) : ℤ :=
  if d.contentLength = -1 then d.status
  else if d.contentLength=0 then 100
  else percent recvdLen d.contentLength

def onData (buf : List UInt8) : HttpDownload :=
  let recvdLen := d.recvdLen+buf.length
  let status := d.newStatus recvdLen
  let d := { d with recvdLen := recvdLen, status := status, written := d.written ++ buf }
  if 100 ≤ status then d.stop else d

end HttpDownload

namespace Resource

def answer (res : Resource) : Option (ℤ × ℤ) → List UInt8
  | none => res.bytes
  | some (first, last) => (res.bytes.drop first.toNat).take (last + 1 - first).toNat

def respond (range : Option (ℤ × ℤ)) (body : List UInt8) : DownloadResponse :=
  ⟨if range.isSome then 206 else 200,none,body.length⟩

end Resource

namespace HttpDownload

/-- The body arrives in buffers of the given sizes, as far as it goes. Nothing arrives once the
socket is closed. -/
def receive (d : HttpDownload) (body : List UInt8) : List ℕ → HttpDownload
  | [] => d
  | n :: sizes =>
    if d.stopped ∨ body.take n = [] then d.receive body sizes
    else (d.onData (body.take n)).receive (body.drop n) sizes

def takeBody (d : HttpDownload) (body : List UInt8) (sizes : List ℕ) : HttpDownload :=
  let d := d.receive body sizes
  if d.stopped then d else d.onDisconnected

def session (res : Resource) (d : HttpDownload) (sizes : List ℕ) : HttpDownload :=
  if d.stopped then d
  else
    let body := res.answer d.strrange
    (d.onHeader (Resource.respond d.strrange body)).takeBody body sizes

def start {length : ℕ} (endPos : ℤ) : DownloadTarget length → HttpDownload
  | .whole => create endPos
  | .range first last _ _ => (create endPos).setRange first last

end HttpDownload

namespace DownloadTarget

variable {length : ℕ}

def first : DownloadTarget length → ℕ
  | .whole => 0
  | .range first _ _ _ => first

def past : DownloadTarget length → ℕ
  | .whole => length
  | .range _ last _ _ => last+1

def content (bytes : List UInt8) (target : DownloadTarget length) : List UInt8 :=
  (bytes.drop target.first).take (target.past - target.first)

end DownloadTarget

end P2Streaming
