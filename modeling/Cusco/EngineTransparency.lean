import Cusco.EngineRuns

/-!
The mapped engine is transparent. Whatever other sessions publish, share, spill or drop, a
session that completes has handed out the stream that the backend alone gives for its request,
up to the token that ends it or after which it is stopped; so any two completed sessions of the
same request agree, on any two engines.
-/

namespace Cusco.EngineTransparency

open LogicalStore Physical Mapped EngineSessions EngineRuns Runs

section Streams

variable {Logits Sampler : Type} {b : Backend Logits Sampler} {request request' : EngineRequest}
  {emitted emitted' : List Token}

theorem stream_length (n : ℕ) : (stream b request n).1.length = n := by
  induction n with
  | zero => rfl
  | succ n ih =>
    show ((stream b request n).1 ++ [_]).length = n + 1
    rw [List.length_append, List.length_singleton, ih]

/-- A longer part of the stream begins with the shorter one. -/
theorem stream_take {m n : ℕ} (h : m ≤ n) :
    ((stream b request n).1).take m = (stream b request m).1 := by
  induction n with
  | zero =>
    obtain rfl := Nat.le_zero.mp h
    rfl
  | succ n ih =>
    rcases Nat.le_succ_iff.mp h with hle | rfl
    · show ((stream b request n).1 ++ [_]).take m = _
      rw [List.take_append_of_le_length (by rw [stream_length]; exact hle), ih hle]
    · exact List.take_of_length_le (stream_length (n + 1)).le

/-- The requests differ at most in the model's path and in the size of the prefill chunks. -/
structure SameRequest (request request' : EngineRequest) : Prop where
  priorTokens : request.priorTokens = request'.priorTokens
  prompt : request.prompt = request'.prompt
  maxTokens : request.maxTokens = request'.maxTokens
  sampling : request.sampling = request'.sampling
  grammar : request.grammar = request'.grammar

theorem promptOf_same (h : SameRequest request request') :
    promptOf b request = promptOf b request' := by
  unfold promptOf
  rw [h.priorTokens, h.prompt]

theorem stream_same (h : SameRequest request request') (n : ℕ) :
    stream b request n = stream b request' n := by
  induction n with
  | zero =>
    unfold stream
    rw [h.sampling, h.grammar]
  | succ n ih =>
    unfold stream
    rw [ih, promptOf_same h]

/-- Of two parts of the stream that end, none is longer. -/
theorem length_le_of_ends (hemitted : (stream b request emitted.length).1 = emitted)
    (hemitted' : (stream b request emitted'.length).1 = emitted')
    (hends : Ends b request emitted) (hends' : Ends b request emitted') :
    emitted'.length ≤ emitted.length := by
  by_contra hlonger
  have hlt : emitted.length < emitted'.length := Nat.not_le.mp hlonger
  have htake : emitted'.take emitted.length = emitted := by
    rw [← hemitted', stream_take hlt.le, hemitted]
  rcases hends.last with hmax | ⟨x, hx, heog⟩
  · have hbounded := hends'.bounded
    omega
  · have hmem : x ∈ emitted'.dropLast := by
      rw [List.dropLast_eq_take]
      apply (List.take_subset_take_left emitted' (Nat.le_sub_one_of_lt hlt))
      rw [htake]
      exact List.mem_of_getLast? hx
    rw [hends'.before x hmem] at heog
    cases heog

end Streams

section Completion

variable {Logits Sampler : Type}

/-- A session that is through, with the output of its last call. -/
structure Completed (live : Live Logits Sampler) (output : EngineOutput) : Prop where
  succeeded : live.failed = false
  output : live.session.finished = some output

/-- Both sessions ran to their end, or both were stopped after the same token. -/
def StopAlike (live live' : Live Logits Sampler) : Prop :=
  live.stopped = false ∧ live'.stopped = false ∨
    live.emitted ≠ [] ∧ live.emitted.length = live'.emitted.length

variable {sha : List UInt8 → Digest} {e : MappedEngine} {b : Backend Logits Sampler}
  {w : World Logits Sampler}

/-- What a completed session handed out. -/
theorem handed_of_completed (h : WorldSound sha e b w) {id : ℕ} {live : Live Logits Sampler}
    {output : EngineOutput} (hlive : w.sessions.lookup id = some live)
    (hcompleted : Completed live output)
    (hkept : live.stopped = false ∨ live.emitted ≠ []) :
    output.successorTokens = promptOf b live.session.request ++ live.emitted ∧
      (stream b live.session.request live.emitted.length).1 = live.emitted ∧
      (live.stopped = false → Ends b live.session.request live.emitted) := by
  have hnone : live.session.finished ≠ none := by
    rw [hcompleted.output]
    exact fun hnone => nomatch hnone
  cases h.attached id live hlive hcompleted.succeeded with
  | preparation hstage hstopped hfinished hemitted hfresh => exact absurd hfinished hnone
  | prefill hstage hstopped hfinished hemitted hworking hhanded hchunked =>
    exact absurd hfinished hnone
  | decode hstage hstopped hfinished hworking hevaluated hhanded hcontinues hsampler =>
    exact absurd hfinished hnone
  | publication hstage hstopped hfinished hhanded hends => exact absurd hfinished hnone
  | finished output' hstage hfinished houtput hhanded hends =>
    rw [hcompleted.output] at hfinished
    cases hfinished
    exact ⟨houtput.trans (hhanded hkept).tokens, (hhanded hkept).stream, hends⟩

/-- Two completed sessions of the same request emit the same tokens and return the same
successor tokens, whatever else their engines did. -/
theorem completions_agree {sha' : List UInt8 → Digest} {e' : MappedEngine}
    {w' : World Logits Sampler} {capacity capacity' : Capacity} {epoch epoch' : ModelEpoch}
    (hreach : Reaches (Step sha e b) (World.opened capacity epoch) w)
    (hreach' : Reaches (Step sha' e' b) (World.opened capacity' epoch') w')
    {id id' : ℕ} {live live' : Live Logits Sampler} {output output' : EngineOutput}
    (hlive : w.sessions.lookup id = some live) (hlive' : w'.sessions.lookup id' = some live')
    (hsame : SameRequest live.session.request live'.session.request)
    (hcompleted : Completed live output) (hcompleted' : Completed live' output')
    (hstop : StopAlike live live') :
    live.emitted = live'.emitted ∧ output.successorTokens = output'.successorTokens := by
  have hkept : live.stopped = false ∨ live.emitted ≠ [] := hstop.imp And.left And.left
  have hkept' : live'.stopped = false ∨ live'.emitted ≠ [] := by
    refine hstop.imp And.right ?_
    intro ⟨hne, hlength⟩ hnil
    rw [hnil, List.length_nil] at hlength
    exact hne (List.eq_nil_of_length_eq_zero hlength)
  obtain ⟨htokens, hstream, hends⟩ :=
    handed_of_completed (worldSound_reached hreach) hlive hcompleted hkept
  obtain ⟨htokens', hstream', hends'⟩ :=
    handed_of_completed (worldSound_reached hreach') hlive' hcompleted' hkept'
  rw [← stream_same hsame] at hstream'
  have hlength : live.emitted.length = live'.emitted.length := by
    rcases hstop with ⟨hfalse, hfalse'⟩ | ⟨_, hlength⟩
    · have hend' := hends' hfalse'
      have hend : Ends b live.session.request live'.emitted :=
        ⟨hsame.maxTokens ▸ hend'.bounded, hend'.before, hsame.maxTokens ▸ hend'.last⟩
      exact Nat.le_antisymm (length_le_of_ends hstream' hstream hend (hends hfalse))
        (length_le_of_ends hstream hstream' (hends hfalse) hend)
    · exact hlength
  have hemitted : live.emitted = live'.emitted := by
    rw [← hstream, hlength, hstream']
  refine ⟨hemitted, ?_⟩
  rw [htokens, htokens', promptOf_same hsame, hemitted]

/-- The same request, with the prompt in chunks of one token. -/
def chunkedRequest : EngineRequest := { smallRequest with prefillChunkTokens := 1 }

/-- Two sessions take turns over the same prompt, and a spill comes between them. -/
def interleaved : List Action :=
  [.start 0 smallRequest, .start 1 chunkedRequest, .step 0 [], .step 1 [], .step 0 [], .step 1 [],
    .step 1 [], .step 0 [], .step 1 [], .step 1 [], .step 0 [], .step 1 [], .step 0 [], .step 0 []]

/-- The sessions' steps, the first session's end and a spill, then the second session's end. -/
def interleavedWithSpill : List Action :=
  interleaved ++ [.spill ((trace smallAct smallWorld interleaved).elim []
    (fun run => (last smallWorld run).state.resident.keys)) [], .step 1 [], .step 1 []]

/-- The second session of the interleaved run agrees with the session that runs alone. -/
theorem interleaved_agrees : ∃ run run' live live' output output',
    IsRun (Step Sha256.sha256 smallEngine smallBackend) smallWorld run ∧
      IsRun (Step Sha256.sha256 smallEngine smallBackend) smallWorld run' ∧
      (last smallWorld run).sessions.lookup 1 = some live ∧
      (last smallWorld run').sessions.lookup 0 = some live' ∧
      Completed live output ∧ Completed live' output' ∧
      live.emitted = live'.emitted ∧ output.successorTokens = output'.successorTokens := by
  have hfirst : (trace smallAct smallWorld interleavedWithSpill).any (fun run =>
      ((last smallWorld run).sessions.lookup 1).any (fun live =>
        decide (live.failed = false ∧ live.stopped = false ∧
          live.session.request = chunkedRequest ∧ live.session.finished.isSome = true))) =
        true := by
    decide +kernel
  have hsecond : (trace smallAct smallWorld (oneSession 0)).any (fun run =>
      ((last smallWorld run).sessions.lookup 0).any (fun live =>
        decide (live.failed = false ∧ live.stopped = false ∧
          live.session.request = smallRequest ∧ live.session.finished.isSome = true))) =
        true := by
    decide +kernel
  obtain ⟨run, htrace, hrun⟩ := (Option.any_eq_true _ _).mp hfirst
  obtain ⟨live, hlive, hchecked⟩ := (Option.any_eq_true _ _).mp hrun
  obtain ⟨hfailed, hstopped, hrequest, hfinished⟩ := of_decide_eq_true hchecked
  obtain ⟨output, houtput⟩ := Option.isSome_iff_exists.mp hfinished
  obtain ⟨run', htrace', hrun'⟩ := (Option.any_eq_true _ _).mp hsecond
  obtain ⟨live', hlive', hchecked'⟩ := (Option.any_eq_true _ _).mp hrun'
  obtain ⟨hfailed', hstopped', hrequest', hfinished'⟩ := of_decide_eq_true hchecked'
  obtain ⟨output', houtput'⟩ := Option.isSome_iff_exists.mp hfinished'
  have hsteps : IsRun (Step Sha256.sha256 smallEngine smallBackend) smallWorld run :=
    isRun_of_trace _ _ _ run htrace
  have hsteps' : IsRun (Step Sha256.sha256 smallEngine smallBackend) smallWorld run' :=
    isRun_of_trace _ _ _ run' htrace'
  have hsame : SameRequest live.session.request live'.session.request := by
    rw [hrequest, hrequest']
    exact ⟨rfl, rfl, rfl, rfl, rfl⟩
  exact ⟨run, run', live, live', output, output', hsteps, hsteps', hlive, hlive',
    ⟨hfailed, houtput⟩, ⟨hfailed', houtput'⟩,
    completions_agree ⟨run, hsteps, rfl⟩ ⟨run', hsteps', rfl⟩ hlive hlive' hsame
      ⟨hfailed, houtput⟩ ⟨hfailed', houtput'⟩ (Or.inl ⟨hstopped, hstopped'⟩)⟩

end Completion

end Cusco.EngineTransparency
