import P2Streaming.HttpDownload

/-!
# Which interrupted downloads are complete

After a loss the next response has the length of the rest, while `recvd_len_` counts from the
beginning. So the percentage reaches 100 before the rest is there, and a further loss makes the
next request skip as many bytes as were there at the first one. A download of the whole resource
takes its length for the position of its last byte and skips a byte at the first loss already.
-/
namespace P2Streaming.HttpDownload
open List

/-- The numbers of bytes received behind each buffer: `total` before the first one, of which
`left` more can come. -/
def totals (total left : ℕ) : List ℕ → List ℕ
  | [] => []
  | n :: sizes =>
    if n=0 ∨ left=0 then totals total left sizes
    else (total + min n left) :: totals (total + min n left) (left - n) sizes

def Finished (contentLength total : ℕ) : Prop := 100 ≤ percent total contentLength

instance (contentLength total : ℕ) : Decidable (Finished contentLength total) := Int.decLe _ _

variable {sizes : List ℕ}

theorem totals_bounds {total left u : ℕ} (h : u ∈ totals total left sizes) : total<u ∧ u≤total+left := by
  induction sizes generalizing total left with
  | nil => exact absurd h not_mem_nil
  | cons n sizes ih =>
    unfold totals at h
    split_ifs at h with hnone
    · exact ih h
    · rcases mem_cons.mp h with rfl | hrest
      · omega
      · have hbounds := ih hrest
        omega

theorem receive_of_stopped {d : HttpDownload} (h : d.stopped=true) (body : List UInt8) (sizes : List ℕ) :
    d.receive body sizes = d := by
  induction sizes with
  | nil => rfl
  | cons n sizes ih =>
    unfold receive
    rw [if_pos (.inl h)]
    exact ih

variable {d : HttpDownload} {body : List UInt8} {c : ℕ}

theorem receive_cons_of_none {n : ℕ} (h : n=0 ∨ body.length=0) :
    d.receive body (n::sizes) = d.receive body sizes := by
  rw [receive,if_pos (.inr (take_eq_nil_iff.mpr (h.imp_right eq_nil_of_length_eq_zero)))]

theorem receive_cons_of_some {n : ℕ} (hopen : d.stopped=false) (h : ¬ (n=0 ∨ body.length=0)) :
    d.receive body (n::sizes) = (d.onData (body.take n)).receive (body.drop n) sizes := by
  have hsome : ¬ (d.stopped=true ∨ body.take n = []) := by
    rintro (hstopped | hnil)
    · exact nomatch hopen.symm.trans hstopped
    · exact h ((take_eq_nil_iff.mp hnil).imp_right length_eq_zero_iff.mpr)
  rw [receive,if_neg hsome]

section
variable (hc : d.contentLength=c)
include hc

theorem newStatus_eq (hpos : 0<c) (total : ℕ) : d.newStatus total = percent total c := by
  have hnone : ¬ (c : ℤ) = -1 := by omega
  have hzero : ¬ (c : ℤ) = 0 := by omega
  rw [newStatus,hc,if_neg hnone,if_neg hzero]

theorem onData_of_finished (hpos : 0<c) (buf : List UInt8)
    (h : Finished c (d.recvdLen+buf.length)) :
    (d.onData buf).stopped = true ∧ 100 ≤ (d.onData buf).status ∧
    (d.onData buf).written = d.written ++ buf := by
  unfold Finished at h
  unfold onData
  dsimp only
  rw [newStatus_eq hc hpos,if_pos h]
  exact ⟨rfl,h,rfl⟩

theorem onData_of_not_finished (hpos : 0<c) (buf : List UInt8)
    (h : ¬ Finished c (d.recvdLen+buf.length)) :
    d.onData buf = { d with
      recvdLen := d.recvdLen+buf.length
      status := percent (d.recvdLen+buf.length) c
      written := d.written ++ buf } := by
  unfold Finished at h
  unfold onData
  dsimp only
  rw [newStatus_eq hc hpos,if_neg h]

theorem receive_of_not_finished (hpos : 0<c) (hopen : d.stopped=false)
    (h : ∀ u ∈ totals d.recvdLen body.length sizes, ¬ Finished c u) :
    ∃ status, (d.status<100 → status<100) ∧ d.receive body sizes =
      { d with
        status := status
        recvdLen := d.recvdLen + min sizes.sum body.length
        written := d.written ++ body.take sizes.sum } := by
  induction sizes generalizing d body with
  | nil => exact ⟨d.status,fun hs => hs,by simp [receive]⟩
  | cons n sizes ih =>
    by_cases hnone : n=0 ∨ body.length=0
    · rw [receive_cons_of_none hnone]
      rw [totals,if_pos hnone] at h
      obtain ⟨status,hstatus,heq⟩ := ih hc hopen h
      refine ⟨status,hstatus,heq.trans ?_⟩
      rcases hnone with rfl | hempty
      · rw [sum_cons,Nat.zero_add]
      · simp [eq_nil_of_length_eq_zero hempty]
    · rw [receive_cons_of_some hopen hnone]
      rw [totals,if_neg hnone,forall_mem_cons] at h
      have hlength : (body.take n).length = min n body.length := length_take
      have hdata := onData_of_not_finished hc hpos (body.take n) (hlength ▸ h.1)
      rw [hdata]
      obtain ⟨status,hstatus,heq⟩ := @ih
        { d with
          recvdLen := d.recvdLen + (body.take n).length
          status := percent (d.recvdLen + (body.take n).length) c
          written := d.written ++ body.take n } (body.drop n) hc hopen
            (by rw [hlength,length_drop]; exact h.2)
      refine ⟨status,fun _ => hstatus (Int.not_le.mp (hlength ▸ h.1)),heq.trans ?_⟩
      have htotal : d.recvdLen + (body.take n).length + min sizes.sum (body.drop n).length =
          d.recvdLen + min (n::sizes).sum body.length := by
        rw [hlength,length_drop,sum_cons]
        omega
      have hwritten : d.written ++ body.take n ++ (body.drop n).take sizes.sum =
          d.written ++ body.take (n::sizes).sum := by
        rw [sum_cons,take_add,append_assoc]
      rw [htotal,hwritten]

/-- A buffer that finishes the download ends it: the first one that does. -/
theorem receive_of_finished (hpos : 0<c) (hopen : d.stopped=false)
    (h : ∃ u ∈ totals d.recvdLen body.length sizes, Finished c u) :
    ∃ u ∈ totals d.recvdLen body.length sizes, Finished c u ∧
      (∀ v ∈ totals d.recvdLen body.length sizes, Finished c v → u≤v) ∧
        (d.receive body sizes).stopped = true ∧ 100 ≤ (d.receive body sizes).status ∧
          (d.receive body sizes).written = d.written ++ body.take (u - d.recvdLen) := by
  induction sizes generalizing d body with
  | nil => exact absurd h (by simp [totals])
  | cons n sizes ih =>
    by_cases hnone : n=0 ∨ body.length=0
    · rw [receive_cons_of_none hnone]
      rw [totals,if_pos hnone] at h ⊢
      exact ih hc hopen h
    · rw [receive_cons_of_some hopen hnone]
      rw [totals,if_neg hnone] at h ⊢
      have hlength : (body.take n).length = min n body.length := length_take
      by_cases hfinished : Finished c (d.recvdLen + min n body.length)
      · -- the first buffer ends the download, and the numbers behind it are greater
        obtain ⟨hstopped,hstatus,hwritten⟩ :=
          onData_of_finished hc hpos (body.take n) (hlength.symm ▸ hfinished)
        refine ⟨_,mem_cons_self,hfinished,forall_mem_cons.mpr ⟨fun _ => Nat.le_refl _,?_⟩,?_⟩
        · exact fun v hv _ => Nat.le_of_lt (totals_bounds hv).1
        · rw [receive_of_stopped hstopped]
          refine ⟨hstopped,hstatus,hwritten.trans ?_⟩
          rw [Nat.add_sub_cancel_left,← take_eq_take_min]
      · have hlater := (exists_mem_cons_iff _ _ _).mp h
        replace hlater := hlater.resolve_left hfinished
        rw [onData_of_not_finished hc hpos (body.take n) (hlength.symm ▸ hfinished)]
        obtain ⟨u,hu,hufinished,hfirst,hstopped,hstatus,hwritten⟩ := @ih
          { d with
            recvdLen := d.recvdLen + (body.take n).length
            status := percent (d.recvdLen + (body.take n).length) c
            written := d.written ++ body.take n } (body.drop n) hc hopen
              (by rw [hlength,length_drop]; exact hlater)
        dsimp only at hu hfirst hwritten
        rw [hlength,length_drop] at hu hfirst
        have hmore := totals_bounds hu
        refine ⟨u,mem_cons_of_mem _ hu,hufinished,
          forall_mem_cons.mpr ⟨fun h => absurd h hfinished,hfirst⟩,hstopped,hstatus,hwritten.trans ?_⟩
        have hsplit : u - d.recvdLen = n + (u - (d.recvdLen + min n body.length)) := by omega
        rw [append_assoc,hlength,hsplit,take_add]

end

theorem receive_nil (d : HttpDownload) (sizes : List ℕ) : d.receive [] sizes = d := by
  induction sizes with
  | nil => rfl
  | cons n sizes ih => exact (receive_cons_of_none (.inr rfl)).trans ih

theorem takeBody_of_not_finished (body : List UInt8) (sizes : List ℕ) (hc : d.contentLength=body.length)
    (hopen : d.stopped=false) (hstatus : d.status<100)
    (h : ∀ u ∈ totals d.recvdLen body.length sizes, ¬ Finished body.length u) :
    ∃ status < (100 : ℤ), d.takeBody body sizes =
      { d with
        status := status
        recvdLen := d.recvdLen + min sizes.sum body.length
        written := d.written ++ body.take sizes.sum
        startPos := d.endPos - body.length + 1 + (d.recvdLen + min sizes.sum body.length : ℕ)
        strrange := some (d.endPos - body.length + 1 + (d.recvdLen + min sizes.sum body.length : ℕ),
          d.endPos) } := by
  have hreceived : ∃ status < (100 : ℤ), d.receive body sizes =
      { d with
        status := status
        recvdLen := d.recvdLen + min sizes.sum body.length
        written := d.written ++ body.take sizes.sum } := by
    by_cases hnone : body.length=0
    · -- an empty answer brings nothing
      refine ⟨d.status,hstatus,?_⟩
      rw [eq_nil_of_length_eq_zero hnone,receive_nil]
      simp
    · obtain ⟨status,hless,heq⟩ := receive_of_not_finished hc (Nat.pos_of_ne_zero hnone) hopen h
      exact ⟨status,hless hstatus,heq⟩
  obtain ⟨status,hless,hreceived⟩ := hreceived
  refine ⟨status,hless,?_⟩
  have hclosed : ¬ d.stopped = true := by simp [hopen]
  have hretry : status<100 ∧ (body.length : ℤ) ≠ -1 := ⟨hless,by omega⟩
  unfold takeBody
  rw [hreceived]
  rw [if_neg hclosed]
  unfold onDisconnected
  rw [hc,if_pos hretry]

theorem takeBody_of_finished (body : List UInt8) (sizes : List ℕ) (hc : d.contentLength=body.length)
    (hopen : d.stopped=false) (h : ∃ u ∈ totals d.recvdLen body.length sizes, Finished body.length u) :
    ∃ u ∈ totals d.recvdLen body.length sizes, Finished body.length u ∧
      (∀ v ∈ totals d.recvdLen body.length sizes, Finished body.length v → u≤v) ∧
        (d.takeBody body sizes).stopped = true ∧ 100 ≤ (d.takeBody body sizes).status ∧
          (d.takeBody body sizes).written = d.written ++ body.take (u - d.recvdLen) := by
  have hpos : 0<body.length := by
    obtain ⟨u,hu,-⟩ := h
    have hbounds := totals_bounds hu
    omega
  obtain ⟨u,hu,hufinished,hfirst,hstopped,hstatus,hwritten⟩ := receive_of_finished hc hpos hopen h
  have htake : d.takeBody body sizes = d.receive body sizes := if_pos hstopped
  rw [htake]
  exact ⟨u,hu,hufinished,hfirst,hstopped,hstatus,hwritten⟩

/-- The status is 100 and the bytes that were asked for have been written. -/
def Complete (content : List UInt8) (d : HttpDownload) : Prop := 100 ≤ d.status ∧ d.written=content

/-- Of the buffers that bring `left` bytes behind the first `total` ones, it is the last one that
finishes a download with this content length. -/
def Ends (c total left : ℕ) (sizes : List ℕ) : Prop :=
  total + left ∈ totals total left sizes ∧ ∀ u ∈ totals total left sizes, Finished c u ↔ u=total+left

instance (c total left : ℕ) (sizes : List ℕ) : Decidable (Ends c total left sizes) := instDecidableAnd

theorem not_ends_of_not_finished {total left : ℕ}
    (h : ∀ u ∈ totals total left sizes, ¬ Finished c u) : ¬ Ends c total left sizes :=
  fun hends => h _ hends.1 ((hends.2 _ hends.1).mpr rfl)

theorem complete_takeBody_iff (body : List UInt8) (sizes : List ℕ) (hc : d.contentLength=body.length)
    (hopen : d.stopped=false) (h : ∃ u ∈ totals d.recvdLen body.length sizes, Finished body.length u) :
    (d.takeBody body sizes).stopped = true ∧
      ((d.takeBody body sizes).Complete (d.written++body) ↔
        Ends body.length d.recvdLen body.length sizes) := by
  obtain ⟨u,hu,hufinished,hfirst,hstopped,hstatus,hwritten⟩ := takeBody_of_finished body sizes hc hopen h
  have hbounds := totals_bounds hu
  refine ⟨hstopped,fun hcomplete => ?_,fun hends => ⟨hstatus,?_⟩⟩
  · have htake : body.take (u - d.recvdLen) = body := append_cancel_left (hwritten.symm.trans hcomplete.2)
    have hall : u=d.recvdLen+body.length := by
      have hlength := congrArg List.length htake
      rw [length_take] at hlength
      omega
    refine ⟨hall ▸ hu,fun v hv => ⟨fun hf => ?_,fun hv' => hv' ▸ hall ▸ hufinished⟩⟩
    have hleast := hfirst v hv hf
    have hmost := (totals_bounds hv).2
    omega
  · have hall := (hends.2 u hu).mp hufinished
    rw [hwritten,hall,Nat.add_sub_cancel_left,take_length]

theorem onHeader_respond (d : HttpDownload) (range : Option (ℤ × ℤ)) (body : List UInt8) :
    d.onHeader (Resource.respond range body) = d.takeLength body.length := by
  cases range <;> rfl

/-- The download waits for an answer to a range request. The range ends at the last byte before
`past`, or at `past` itself if this is the end of the resource. -/
structure Asks (res : Resource) (past : ℕ) (d : HttpDownload) : Prop where
  opened : d.stopped=false
  unfinished : d.status<100
  counted : d.written.length=d.recvdLen
  positive : 0≤d.startPos
  begun : d.downloadAll=true → 0<d.startPos
  ranged : d.strrange = some (d.startPos, d.endPos)
  ends : d.endPos = past - 1 ∨ (d.endPos=past ∧ past=res.bytes.length)
  proper : 0<past
  inside : past ≤ res.bytes.length

def rest (past : ℕ) (d : HttpDownload) : ℕ := past - d.startPos.toNat

namespace Asks

variable {res : Resource} {past : ℕ}

section
variable (h : d.Asks res past)
include h

theorem answer :
    res.answer d.strrange = (res.bytes.drop d.startPos.toNat).take (d.rest past) := by
  rw [h.ranged,Resource.answer,rest]
  have hpos := h.positive
  rcases h.ends with hend | ⟨hend,hwhole⟩
  · congr 1
    omega
  · -- the range reaches one byte beyond the resource
    have hlength : (res.bytes.drop d.startPos.toNat).length = res.bytes.length - d.startPos.toNat :=
      length_drop
    rw [take_of_length_le (by omega),take_of_length_le (by omega)]

theorem length_answer : (res.answer d.strrange).length = d.rest past := by
  have hinside := h.inside
  rw [h.answer,length_take,length_drop,rest]
  omega

theorem onHeader :
    ∃ failures, d.onHeader (Resource.respond d.strrange (res.answer d.strrange)) =
      { d with contentLength := d.rest past, failures := failures } := by
  have hbegun : ¬ (d.downloadAll=true ∧ d.startPos=0) := fun hall => by
    have hpos := h.begun hall.1
    omega
  have hlong : ¬ ((d.rest past : ℤ) < d.endPos - d.startPos ∧ (d.rest past : ℤ) ≠ -1) := by
    have hpos := h.positive
    have hends := h.ends
    unfold rest
    omega
  rw [onHeader_respond,h.length_answer]
  unfold takeLength
  dsimp only
  split_ifs
  · exact ⟨d.failures+1,rfl⟩
  · exact ⟨d.failures,rfl⟩

theorem session (sizes : List ℕ) : ∃ failures, HttpDownload.session res d sizes =
      takeBody { d with contentLength := d.rest past, failures := failures }
        (res.answer d.strrange) sizes := by
  obtain ⟨failures,hheader⟩ := h.onHeader
  have hclosed : ¬ d.stopped = true := by simp [h.opened]
  refine ⟨failures,?_⟩
  unfold HttpDownload.session
  dsimp only
  rw [if_neg hclosed,hheader]

theorem session_of_not_finished (sizes : List ℕ)
    (hnot : ∀ u ∈ totals d.recvdLen (d.rest past) sizes, ¬ Finished (d.rest past) u) :
    (HttpDownload.session res d sizes).Asks res past ∧
      (HttpDownload.session res d sizes).recvdLen = d.recvdLen + min sizes.sum (d.rest past) ∧
        (HttpDownload.session res d sizes).startPos =
            d.endPos - d.rest past + 1 + (HttpDownload.session res d sizes).recvdLen ∧
          (HttpDownload.session res d sizes).written = d.written ++
          (res.answer d.strrange).take sizes.sum ∧
            (HttpDownload.session res d sizes).endPos = d.endPos := by
  obtain ⟨failures,hsession⟩ := h.session sizes
  have hlength := h.length_answer
  rw [← hlength] at hnot
  obtain ⟨status,hstatus,htake⟩ := takeBody_of_not_finished (res.answer d.strrange) sizes
    (d := { d with contentLength := d.rest past, failures := failures })
      (by rw [hlength]) h.opened h.unfinished hnot
  have hends := h.ends
  have hrest : d.rest past = past - d.startPos.toNat := rfl
  have hproper := h.proper
  rw [hsession,htake,hlength]
  refine ⟨⟨h.opened,hstatus,?_,?_,fun hall => ?_,rfl,hends,hproper,h.inside⟩,rfl,rfl,rfl,rfl⟩
  · rw [length_append,h.counted,length_take,hlength]
  · dsimp only
    omega
  · have hbegun := h.begun hall
    dsimp only
    omega

theorem session_of_finished (sizes : List ℕ)
    (hfinished : ∃ u ∈ totals d.recvdLen (d.rest past) sizes, Finished (d.rest past) u) :
    (HttpDownload.session res d sizes).stopped = true ∧
      ((HttpDownload.session res d sizes).Complete (d.written ++ res.answer d.strrange) ↔
        Ends (d.rest past) d.recvdLen (d.rest past) sizes) := by
  obtain ⟨failures,hsession⟩ := h.session sizes
  have hlength := h.length_answer
  rw [← hlength] at hfinished
  have hcomplete := complete_takeBody_iff (res.answer d.strrange) sizes
    (d := { d with contentLength := d.rest past, failures := failures })
      (by rw [hlength]) h.opened hfinished
  rw [hlength] at hcomplete
  rw [hsession]
  exact hcomplete

theorem length_written_session (sizes : List ℕ) :
    (HttpDownload.session res d sizes).written.length ≤ d.recvdLen + d.rest past := by
  obtain ⟨failures,hsession⟩ := h.session sizes
  have hlength := h.length_answer
  by_cases hfinished : ∃ u ∈ totals d.recvdLen (res.answer d.strrange).length sizes,
      Finished (res.answer d.strrange).length u
  · obtain ⟨u,hu,-,-,-,-,hwritten⟩ := takeBody_of_finished (res.answer d.strrange) sizes
      (d := { d with contentLength := d.rest past, failures := failures })
        (by rw [hlength]) h.opened hfinished
    rw [hsession,hwritten,length_append,h.counted,length_take,hlength]
    omega
  · rw [hlength] at hfinished
    obtain ⟨hnext,hrecvd,-⟩ := h.session_of_not_finished sizes fun u hu hf => hfinished ⟨u,hu,hf⟩
    rw [hnext.counted,hrecvd]
    omega

end

end Asks

theorem foldl_session_of_stopped (res : Resource) (h : d.stopped=true) (conns : List (List ℕ)) :
    conns.foldl (session res) d = d := by
  induction conns with
  | nil => rfl
  | cons sizes conns ih =>
    have hsame : session res d sizes = d := if_pos h
    rw [foldl_cons,hsame]
    exact ih

/-- No answer brings a byte any more, or what all answers bring will not be enough. -/
def Behind (res : Resource) (past count : ℕ) (d : HttpDownload) : Prop :=
  d.Asks res past ∧ (d.rest past = 0 ∨ d.recvdLen + d.rest past < count)

section Behind

variable {res : Resource} {past count : ℕ}

theorem Behind.session (h : d.Behind res past count) (sizes : List ℕ) :
    (HttpDownload.session res d sizes).Behind res past count ∨
      (HttpDownload.session res d sizes).stopped = true ∧
      (HttpDownload.session res d sizes).written.length < count := by
  obtain ⟨hasks,hshort⟩ := h
  by_cases hfinished : ∃ u ∈ totals d.recvdLen (d.rest past) sizes, Finished (d.rest past) u
  · have hlength := hasks.length_written_session sizes
    have hsome : d.rest past ≠ 0 := by
      obtain ⟨u,hu,-⟩ := hfinished
      have hbounds := totals_bounds hu
      omega
    exact .inr ⟨(hasks.session_of_finished sizes hfinished).1,by omega⟩
  · have hnot : ∀ u ∈ totals d.recvdLen (d.rest past) sizes, ¬ Finished (d.rest past) u :=
      fun u hu hf => hfinished ⟨u,hu,hf⟩
    obtain ⟨hnext,hrecvd,hstart,-⟩ := hasks.session_of_not_finished sizes hnot
    refine .inl ⟨hnext,?_⟩
    have hends := hasks.ends
    have hrest' : (HttpDownload.session res d sizes).rest past =
      past - (HttpDownload.session res d sizes).startPos.toNat := rfl
    omega

theorem Behind.not_complete (h : d.Behind res past count) {content : List UInt8}
    (hcount : content.length=count)
    (conns : List (List ℕ)) : ¬ (conns.foldl (HttpDownload.session res) d).Complete content := by
  induction conns generalizing d with
  | nil => exact fun hcomplete => absurd hcomplete.1 (Int.not_le.mpr h.1.unfinished)
  | cons sizes conns ih =>
    rw [foldl_cons]
    rcases h.session sizes with hbehind | ⟨hstopped,hlength⟩
    · exact ih hbehind
    · rw [foldl_session_of_stopped res hstopped]
      intro hcomplete
      rw [hcomplete.2,hcount] at hlength
      exact Nat.lt_irrefl _ hlength

end Behind

/-- What has been written is what was asked for so far, and the next request is for the rest. -/
structure OnTrack (res : Resource) (first past : ℕ) (d : HttpDownload) :
    Prop extends d.Asks res past where
  follows : d.startPos=first+d.recvdLen
  prior : d.written = ((res.bytes.drop first).take (past - first)).take d.recvdLen
  exclusive : d.endPos = past - 1

namespace OnTrack

variable {res : Resource} {first past : ℕ} {sizes : List ℕ}

section
variable (h : d.OnTrack res first past)
include h

theorem rest_eq : d.rest past = past - first - d.recvdLen := by
  have hfollows := h.follows
  unfold rest
  omega

theorem content_eq :
    d.written ++ res.answer d.strrange = (res.bytes.drop first).take (past - first) := by
  have hstart : d.startPos.toNat=first+d.recvdLen := by
    have hfollows := h.follows
    omega
  have hanswer : res.answer d.strrange = ((res.bytes.drop first).take (past - first)).drop
    d.recvdLen := by
    rw [h.answer,h.rest_eq,hstart,drop_take,drop_drop]
  rw [h.prior,hanswer,take_append_drop]

theorem not_complete (content : List UInt8) : ¬ d.Complete content :=
  fun hcomplete => absurd hcomplete.1 (Int.not_le.mpr h.unfinished)

theorem session_of_first (sizes : List ℕ) (hnone : d.recvdLen=0)
    (hordered : first≤past) (hnot : ∀ u ∈ totals 0 (past - first) sizes, ¬ Finished (past - first) u) :
    (session res d sizes).OnTrack res first past ∧
      (session res d sizes).recvdLen = min sizes.sum (past - first) := by
  have hrest : d.rest past = past - first := by rw [h.rest_eq,hnone,Nat.sub_zero]
  obtain ⟨hnext,hrecvd,hstart,hwritten,hendPos⟩ := h.session_of_not_finished sizes
    (by rw [hrest,hnone]; exact hnot)
  rw [hrest,hnone,Nat.zero_add] at hrecvd
  have hexclusive := h.exclusive
  refine ⟨⟨hnext,?_,?_,hendPos.trans hexclusive⟩,hrecvd⟩
  · omega
  · have hempty : d.written=[] := eq_nil_of_length_eq_zero (h.counted.trans hnone)
    have hcontent := h.content_eq
    rw [hempty,nil_append] at hcontent
    rw [hwritten,hempty,hcontent,hrecvd,nil_append,take_take,take_take]
    congr 1
    omega

theorem behind_session (hsome : 0<d.recvdLen)
    (hnot : ∀ u ∈ totals d.recvdLen (d.rest past) sizes, ¬ Finished (d.rest past) u) :
    (session res d sizes).Behind res past (past - first) := by
  obtain ⟨hnext,hrecvd,hstart,-⟩ := h.session_of_not_finished sizes hnot
  refine ⟨hnext,?_⟩
  have hrest := h.rest_eq
  have hexclusive := h.exclusive
  have hrest' : (session res d sizes).rest past = past - (session res d sizes).startPos.toNat := rfl
  omega

end

end OnTrack

/-- The next connection brings the bytes that are missing, and its last buffer finishes a download
of this content length. -/
def EndsNext (c total left : ℕ) : List (List ℕ) → Prop
  | [] => False
  | sizes :: _ => Ends c total left sizes

/-- The connections that bring the `count` bytes of a range: behind those that bring nothing, one
that brings all bytes, or one that is lost and one that brings the rest. -/
def RangeSurvives (count : ℕ) : List (List ℕ) → Prop
  | [] => False
  | sizes :: conns =>
    if sizes.sum=0 then RangeSurvives count conns
    else
      Ends count 0 count sizes ∨
        (∀ u ∈ totals 0 count sizes, ¬ Finished count u) ∧
          EndsNext (count - min sizes.sum count) (min sizes.sum count) (count - min sizes.sum count) conns

/-- The connections that bring what is asked for. The whole resource has to come over the first one. -/
def Survives {length : ℕ} (conns : List (List ℕ)) : DownloadTarget length → Prop
  | .whole => EndsNext length 0 length conns
  | .range first last _ _ => RangeSurvives (last + 1 - first) conns

section Targets

variable {res : Resource} {first past : ℕ}

theorem totals_of_sum_eq_zero {total left : ℕ} {sizes : List ℕ} (h : sizes.sum=0) :
    totals total left sizes = [] := by
  induction sizes with
  | nil => rfl
  | cons n sizes ih =>
    rw [sum_cons] at h
    rw [totals,if_pos (.inl (by omega))]
    exact ih (by omega)

theorem complete_foldl_of_stopped (h : d.stopped=true) (conns : List (List ℕ)) (content : List UInt8) :
    (conns.foldl (session res) d).Complete content ↔ d.Complete content := by
  rw [foldl_session_of_stopped res h]

theorem OnTrack.complete_iff (h : d.OnTrack res first past) (hsome : 0<d.recvdLen) (hordered : first<past)
    (conns : List (List ℕ)) :
    (conns.foldl (session res) d).Complete ((res.bytes.drop first).take (past - first)) ↔
      EndsNext (past - first - d.recvdLen) d.recvdLen (past - first - d.recvdLen) conns := by
  cases conns with
  | nil => exact iff_of_false (h.not_complete _) id
  | cons sizes conns =>
    rw [foldl_cons,EndsNext,← h.rest_eq]
    by_cases hfinished : ∃ u ∈ totals d.recvdLen (d.rest past) sizes, Finished (d.rest past) u
    · obtain ⟨hstopped,hcomplete⟩ := h.session_of_finished sizes hfinished
      rw [complete_foldl_of_stopped hstopped,← hcomplete,h.content_eq]
    · have hnot : ∀ u ∈ totals d.recvdLen (d.rest past) sizes, ¬ Finished (d.rest past) u :=
        fun u hu hf => hfinished ⟨u,hu,hf⟩
      have hlength : ((res.bytes.drop first).take (past - first)).length = past - first := by
        have hinside := h.inside
        rw [length_take,length_drop]
        omega
      exact iff_of_false ((h.behind_session hsome hnot).not_complete hlength conns)
        (not_ends_of_not_finished hnot)

theorem OnTrack.complete_iff_of_first (h : d.OnTrack res first past) (hnone : d.recvdLen=0)
    (hordered : first<past) (conns : List (List ℕ)) :
    (conns.foldl (session res) d).Complete ((res.bytes.drop first).take (past - first)) ↔
      RangeSurvives (past - first) conns := by
  induction conns generalizing d with
  | nil => exact iff_of_false (h.not_complete _) id
  | cons sizes conns ih =>
    have hrest : d.rest past = past - first := by rw [h.rest_eq,hnone,Nat.sub_zero]
    rw [foldl_cons,RangeSurvives]
    by_cases hsum : sizes.sum=0
    · -- the connection is lost before it brings anything
      obtain ⟨hnext,hrecvd⟩ := h.session_of_first sizes hnone (Nat.le_of_lt hordered)
        (by rw [totals_of_sum_eq_zero hsum]; exact fun _ hu => absurd hu not_mem_nil)
      rw [if_pos hsum]
      exact ih hnext (by rw [hrecvd,hsum,Nat.zero_min])
    · rw [if_neg hsum]
      by_cases hfinished : ∃ u ∈ totals 0 (past - first) sizes, Finished (past - first) u
      · obtain ⟨hstopped,hcomplete⟩ := h.session_of_finished sizes (by rw [hrest,hnone]; exact hfinished)
        rw [h.content_eq,hrest,hnone] at hcomplete
        rw [complete_foldl_of_stopped hstopped,hcomplete]
        obtain ⟨u,hu,hf⟩ := hfinished
        exact ⟨.inl,fun hor => hor.resolve_right fun hlost => hlost.1 u hu hf⟩
      · have hnot : ∀ u ∈ totals 0 (past - first) sizes, ¬ Finished (past - first) u :=
          fun u hu hf => hfinished ⟨u,hu,hf⟩
        obtain ⟨hnext,hrecvd⟩ := h.session_of_first sizes hnone (Nat.le_of_lt hordered) hnot
        rw [hnext.complete_iff (by omega) hordered,hrecvd]
        exact ⟨fun hends => .inr ⟨hnot,hends⟩,
          fun hor => (hor.resolve_left (not_ends_of_not_finished hnot)).2⟩

theorem takeLength_of_whole (hall : d.downloadAll=true ∧ d.startPos=0) (hc : 0<c) :
    d.takeLength c = { d with contentLength := c, strrange := some (d.startPos, (c : ℤ)), endPos :=
      c } := by
  have hpos : 0 < (c : ℤ) := Int.natCast_pos.mpr hc
  have hlong : ¬ ((c : ℤ) < (c : ℤ) - d.startPos ∧ (c : ℤ) ≠ -1) := by omega
  have hsome : ¬ (c : ℤ) = 0 := by omega
  unfold takeLength
  dsimp only
  rw [if_pos hall,if_pos hpos]
  rw [if_neg hlong,if_neg hsome]

def wholeAnswered (res : Resource) (endPos : ℤ) : HttpDownload :=
  { create endPos with
    contentLength := res.bytes.length
    endPos := res.bytes.length
    strrange := some (0, res.bytes.length) }

theorem session_create (res : Resource) (endPos : ℤ) (sizes : List ℕ) :
    session res (create endPos) sizes = (wholeAnswered res endPos).takeBody res.bytes sizes := by
  have hheader : (create endPos).takeLength res.bytes.length = wholeAnswered res endPos :=
    takeLength_of_whole ⟨rfl,rfl⟩ res.nonempty
  exact congrArg (fun d => takeBody d res.bytes sizes) hheader

theorem behind_session_create {sizes : List ℕ} (endPos : ℤ)
    (hnot : ∀ u ∈ totals 0 res.bytes.length sizes, ¬ Finished res.bytes.length u) :
    (session res (create endPos) sizes).Behind res res.bytes.length res.bytes.length := by
  have hstart : (0 : ℤ) < 100 := by decide
  obtain ⟨status,hstatus,htake⟩ := takeBody_of_not_finished (d :=
    wholeAnswered res endPos) res.bytes sizes rfl rfl
    hstart hnot
  rw [session_create,htake]
  refine ⟨⟨rfl,hstatus,?_,?_,fun _ => ?_,rfl,.inr ⟨rfl,rfl⟩,res.nonempty,Nat.le_refl _⟩,?_⟩
  · simp [wholeAnswered,create]
  · dsimp only [wholeAnswered,create]
    omega
  · dsimp only [wholeAnswered,create]
    omega
  · dsimp only [wholeAnswered,create,rest]
    omega

theorem complete_whole_iff (res : Resource) (endPos : ℤ) (conns : List (List ℕ)) :
    (conns.foldl (session res) (create endPos)).Complete res.bytes ↔
      EndsNext res.bytes.length 0 res.bytes.length conns := by
  cases conns with
  | nil =>
    have hstart : ¬ (100 : ℤ) ≤ 0 := by decide
    exact iff_of_false (fun h => hstart h.1) id
  | cons sizes conns =>
    rw [foldl_cons,EndsNext]
    by_cases hfinished : ∃ u ∈ totals 0 res.bytes.length sizes, Finished res.bytes.length u
    · obtain ⟨hstopped,hcomplete⟩ := complete_takeBody_iff (d :=
        wholeAnswered res endPos) res.bytes sizes rfl rfl
        hfinished
      rw [← session_create] at hstopped hcomplete
      rw [complete_foldl_of_stopped hstopped]
      exact hcomplete
    · have hnot : ∀ u ∈ totals 0 res.bytes.length sizes, ¬ Finished res.bytes.length u :=
        fun u hu hf => hfinished ⟨u,hu,hf⟩
      exact iff_of_false ((behind_session_create endPos hnot).not_complete rfl conns)
        (not_ends_of_not_finished hnot)

theorem onTrack_setRange (res : Resource) (endPos : ℤ) {first last : ℕ}
    (hinside : last < res.bytes.length) : ((create endPos).setRange first last).OnTrack res first
    (last+1) := by
  have hstart : (0 : ℤ) < 100 := by decide
  refine ⟨⟨rfl,hstart,rfl,Int.natCast_nonneg first,nofun,rfl,.inl ?_,Nat.succ_pos last,hinside⟩,?_,?_,?_⟩
  all_goals simp [setRange,create]

end Targets

/-- A download whose connections are lost at arbitrary points, up to the last one, which brings
the rest of its answer in a last buffer, is complete just for the connections described. -/
theorem interrupted_download_iff (res : Resource) (target : DownloadTarget res.bytes.length) (endPos : ℤ)
    (lost : List (List ℕ)) (last : List ℕ) :
    ((lost ++ [last ++ [res.bytes.length]]).foldl (session res) (start endPos target)).Complete
        (target.content res.bytes) ↔
      Survives (lost ++ [last ++ [res.bytes.length]]) target := by
  cases target with
  | whole =>
    have hcontent : DownloadTarget.content res.bytes (.whole : DownloadTarget res.bytes.length) =
      res.bytes :=
      take_length
    rw [hcontent]
    exact complete_whole_iff res endPos _
  | range first final hordered hinside =>
    exact (onTrack_setRange res endPos hinside).complete_iff_of_first rfl (Nat.lt_succ_of_le hordered) _

/-- The connection is lost behind the first byte: the whole resource comes without the second one.
A range loses its third byte if the next connection is lost behind one more. -/
theorem lost_bytes :
    let res : Resource := ⟨[10,20,30,40],by decide,by decide⟩
    ¬ ([[1],[4]].foldl (session res) (start 0 (.whole : DownloadTarget 4))).Complete [10,20,30,40] ∧
      ¬ ([[1],[1],[4]].foldl (session res) (start 0
        (.range 0 3 (by decide) (by decide) : DownloadTarget 4))).Complete
        [10,20,30,40] :=
  ⟨fun h => absurd h.2 (by decide),fun h => absurd h.2 (by decide)⟩

end P2Streaming.HttpDownload
