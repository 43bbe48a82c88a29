import Khttp.RequestAnswers

/-!
# The order of the responses

The response to a request is appended by a worker, an error response by the read pass
itself. A read pass that appends an error response while earlier requests are pending puts
it before their responses. Where no read pass does so, the responses stand in the order of
the inputs that caused them.
-/

namespace Khttp

open Lib

namespace Server

variable {processRequest : ServerEnv → HttpRequest → Option (Option HttpResponse)}
  {errorPage : Option Bytes} {s s' : Server} {a : Action} {c : ℕ}

/-- Where the action appends an error response, no request is pending. -/
def RefusesLast (s : Server) (a : Action) : Prop :=
  ∀ received ∈ a.receives, ∀ t ∈ s.tasks[received.1]?,
    (s.conns t.item.data).refuses received.2.1 = true →
      (s.conns t.item.data).pendingRequests = []

instance (s : Server) (a : Action) : Decidable (s.RefusesLast a) :=
  inferInstanceAs (Decidable (∀ received ∈ a.receives, ∀ t ∈ s.tasks[received.1]?,
    (s.conns t.item.data).refuses received.2.1 = true →
      (s.conns t.item.data).pendingRequests = []))

/-- The inputs that caused the responses, without the interim ones. -/
def finalCauses (responses : List Appended) : List ℕ :=
  (responses.filter (·.code ≠ 100)).map (·.cause)

/-- The final responses stand in the order of the inputs that caused them. -/
def ResponsesInOrder (s : Server) (c : ℕ) : Prop :=
  (finalCauses (s.history.appended c)).Pairwise (· ≤ ·)

@[simp] theorem finalCauses_append (responses more : List Appended) :
    finalCauses (responses ++ more) = finalCauses responses ++ finalCauses more := by
  simp [finalCauses]

/-- A single response counts at most once. -/
theorem finalCauses_singleton (k : ℕ) (code : UInt16) :
    finalCauses [⟨k, code⟩] = if code ≠ 100 then [k] else [] := by
  by_cases hcode : code = 100 <;> simp [finalCauses, hcode]

/-- The causes of the final responses and of the pending requests are in order and not behind
the input that was last read. -/
structure CausesInOrder (s : Server) (c : ℕ) : Prop where
  /-- Each pending request has a cause. -/
  length : (s.history.causes c).length = (s.conns c).pendingRequests.length
  /-- The causes are in order. -/
  sorted : (finalCauses (s.history.appended c) ++ s.history.causes c).Pairwise (· ≤ ·)
  /-- They have been read. -/
  bound : ∀ k ∈ finalCauses (s.history.appended c) ++ s.history.causes c, k ≤ s.input c

/-- A number that is not below the others goes to the end. -/
theorem pairwise_le_append {l : List ℕ} {k : ℕ} (h : l.Pairwise (· ≤ ·)) (hk : ∀ x ∈ l, x ≤ k) :
    (l ++ [k]).Pairwise (· ≤ ·) := by
  rw [List.pairwise_append]
  refine ⟨h, List.pairwise_singleton _ _, fun x hx y hy => ?_⟩
  rw [List.mem_singleton.mp hy]
  exact hk x hx

/-- Nothing that concerns the order changes. -/
theorem CausesInOrder.of_same (hs : s.CausesInOrder c) (hsame : s.RequestsSame s' c) :
    s'.CausesInOrder c := by
  refine ⟨?_, ?_, ?_⟩
  · rw [hsame.causes, hsame.pending, hs.length]
  · rw [hsame.appended, hsame.causes]
    exact hs.sorted
  · rw [hsame.appended, hsame.causes, hsame.input]
    exact hs.bound

/-- What a read pass appends keeps the order. -/
theorem CausesInOrder.readDone {i : ℕ} {t : Task} {outcome : SocketRead} {n k : ℕ}
    {pass : ReadPass} (hs : s.CausesInOrder t.item.data) (ht : s.tasks[i]? = some t)
    (hinput : s.input t.item.data ≤ k) (hgood : s.RefusesLast (.read i outcome n k))
    (h : ReadMove (s.conns t.item.data) outcome pass) :
    (s.readDone i t outcome n k pass).CausesInOrder t.item.data := by
  have hbound (x : ℕ) (hx : x ∈ finalCauses (s.history.appended t.item.data) ++
      s.history.causes t.item.data) : x ≤ k := (hs.bound x hx).trans hinput
  -- a pass that appends nothing that counts
  have hquiet (hnew : finalCauses ((newResponses (s.conns t.item.data) pass.conn).map
      fun response => ⟨k, response.resp.code⟩) = []) (hnone : pass.appended = [])
      (hpending : pass.conn.pendingRequests = (s.conns t.item.data).pendingRequests) :
      (s.readDone i t outcome n k pass).CausesInOrder t.item.data := by
    refine ⟨?_, ?_, ?_⟩
    · simpa [Server.readDone, hnone, hpending] using hs.length
    · simpa [Server.readDone, hnone, hnew] using hs.sorted
    · simpa [Server.readDone, hnone, hnew] using hbound
  cases h with
  | wouldBlock | failed | eof | kept => exact hquiet (by simp [newResponses, finalCauses]) rfl rfl
  | interim =>
    refine hquiet ?_ rfl rfl
    simp [newResponses, ServerConnection.appendResponse, finalCauses, httpResponseNew,
      httpResponseLineNew]
  | complete =>
    have hnew (conn : ServerConnection) (requests : List HttpRequest) :
        newResponses conn { conn with pendingRequests := requests, parseState := .new } = [] := by
      simp [newResponses]
    refine ⟨?_, ?_, ?_⟩
    · simp [Server.readDone, hs.length]
    · simpa [Server.readDone, hnew, finalCauses] using pairwise_le_append hs.sorted hbound
    · intro x hx
      have hx : x ∈ finalCauses (s.history.appended t.item.data) ∨
          x ∈ s.history.causes t.item.data ∨ x = k := by
        simpa [Server.readDone, hnew, finalCauses] using hx
      rcases hx with hx | hx | rfl
      · simpa [Server.readDone] using hbound x (List.mem_append_left _ hx)
      · simpa [Server.readDone] using hbound x (List.mem_append_right _ hx)
      · simp [Server.readDone]
  | @refused run parseState returnedZero response hexecute hrefused hcode =>
    have hrefuses : (s.conns t.item.data).refuses run = true := by
      rcases hrefused with hupgrade | hparsed
      · simp [ServerConnection.refuses, hupgrade]
      · cases hrun : run.parsed <;> simp_all [ServerConnection.refuses]
    have hnone : (s.conns t.item.data).pendingRequests = [] := hgood _ rfl t ht hrefuses
    have hcauses : s.history.causes t.item.data = [] := by
      rw [← List.length_eq_zero_iff, hs.length, hnone]
      rfl
    have hfinal : response.resp.code ≠ 100 := by
      rcases hcode with hcode | hcode <;> rw [hcode] <;> decide
    have hsorted := hs.sorted
    rw [hcauses, List.append_nil] at hsorted
    simp only [hcauses, List.append_nil] at hbound
    refine ⟨?_, ?_, ?_⟩
    · simp [Server.readDone, hcauses, hnone]
    · simpa [Server.readDone, newResponses, ServerConnection.appendResponse, hcauses,
        finalCauses_singleton, hfinal] using pairwise_le_append hsorted hbound
    · intro x hx
      have hx : x ∈ finalCauses (s.history.appended t.item.data) ∨ x = k := by
        simpa [Server.readDone, newResponses, ServerConnection.appendResponse, hcauses,
          finalCauses_singleton, hfinal] using hx
      rcases hx with hx | rfl
      · simpa [Server.readDone] using hbound x hx
      · simp [Server.readDone]

/-- A worker's answer keeps the order. -/
theorem CausesInOrder.processed {i : ℕ} {t : Task} {request : HttpRequest}
    {pending : List HttpRequest} {response : HttpResponse} (hs : s.CausesInOrder t.item.data)
    (hpending : (s.conns t.item.data).pendingRequests = request :: pending) :
    (s.processed i t
      (({ s.conns t.item.data with pendingRequests := pending } :
        ServerConnection).appendResponse response) response).CausesInOrder t.item.data := by
  obtain ⟨hlength, hsorted, hbound⟩ := hs
  cases hcauses : s.history.causes t.item.data with
  | nil => simp [hcauses, hpending] at hlength
  | cons cause causes =>
    rw [hcauses] at hsorted hbound
    -- the answer takes the place of its request, or is none that counts
    have hsub : (finalCauses (s.history.appended t.item.data ++ [⟨cause, response.resp.code⟩]) ++
        causes).Sublist (finalCauses (s.history.appended t.item.data) ++ cause :: causes) := by
      rw [finalCauses_append, finalCauses_singleton, List.append_assoc]
      refine List.Sublist.append_left ?_ _
      split
      · exact List.Sublist.refl _
      · exact List.sublist_cons_self _ _
    refine ⟨?_, ?_, ?_⟩
    · simpa [Server.processed, hcauses, hpending] using hlength
    · simpa [Server.processed, hcauses] using hsorted.sublist hsub
    · intro x hx
      have hx : x ∈ finalCauses (s.history.appended t.item.data ++
          [⟨cause, response.resp.code⟩]) ++ causes := by
        simpa [Server.processed, hcauses] using hx
      exact hbound x (hsub.subset hx)

/-- A step that appends an error response only where no request is pending keeps the order. -/
theorem CausesInOrder.of_move (hs : s.CausesInOrder c) (hgood : s.RefusesLast a)
    (h : Move processRequest errorPage s a s') : s'.CausesInOrder c := by
  cases requestMove_of_move h c with
  | same hsame => exact hs.of_same hsame
  | accepted _ _ happended hcauses hpending =>
    refine ⟨?_, ?_, ?_⟩ <;> simp [happended, hcauses, hpending, finalCauses]
  | read ht hdata hinput hpass =>
    subst hdata
    exact hs.readDone ht hinput hgood hpass
  | process ht hpc hdata hpending hanswer =>
    subst hdata
    exact hs.processed hpending

/-- In every run in which error responses are appended only where no request is pending, the
final responses of a connection stand in the order of their inputs. -/
theorem responsesInOrder_of_meets {as : List Action} {s : Server}
    (hmeets : (machineWith processRequest errorPage).Meets RefusesLast .start as)
    (hrun : (machineWith processRequest errorPage).run as = some s) (c : ℕ) :
    s.ResponsesInOrder c := by
  have hinv : s.CausesInOrder c := by
    refine (machineWith processRequest errorPage).invariant RefusesLast (·.CausesInOrder c)
      (fun s a t hs hgood hstep => hs.of_move hgood (move_of_step hstep)) ?_ hmeets hrun
    refine ⟨rfl, ?_, ?_⟩ <;> simp [Server.start, finalCauses]
  exact hinv.sorted.sublist (List.sublist_append_left _ _)

/-- A server for one host, which answers for no other name. -/
def oneHost : ConfigServer :=
  { configServerNew [] with
    hosts := [⟨some (ascii "a"), false, true, some (ascii "/"), [], false⟩] }

/-- The first request is read, and a report brings another read pass. -/
def secondRead : List Action :=
  firstRequest ++ [.tick 0, .main, .main, .main, .arrive 0 5,
    .poll [.client 0 ⟨false, false, true, false⟩], .main, .main]

/-- The bytes of the second read pass, which no request begins with. -/
def malformedRead : List Action :=
  [.fetch .poolRead, .tick 0, .read 0 (.data ⟨[], false, false, ascii "invalid HTTP method"⟩) 5 2,
    .tick 0, .tick 0, .tick 0]

/-- A worker answers the pending request. -/
def workerPass : List Action :=
  [.fetch .poolWorker, .tick 0, .process 0 plainEnv, .tick 0, .tick 0, .tick 0, .tick 0]

/-- Where the worker is first, the error response comes behind its answer. -/
theorem responsesInOrder_workerFirst : ∃ s,
    (serverMachine oneHost none).run (secondRead ++ workerPass ++ malformedRead) = some s ∧
      s.history.appended 0 = [⟨1, 403⟩, ⟨2, 400⟩] ∧ s.ResponsesInOrder 0 := by
  have happended : ((serverMachine oneHost none).run
      (secondRead ++ workerPass ++ malformedRead)).map (·.history.appended 0) =
        some [⟨1, 403⟩, ⟨2, 400⟩] := by decide +kernel
  obtain ⟨s, hrun, hs⟩ := Option.map_eq_some_iff.mp happended
  exact ⟨s, hrun, hs, responsesInOrder_of_meets (by decide +kernel) hrun 0⟩

/-- Where the read pass is first, the error response comes before the answer to the earlier
request. -/
theorem not_responsesInOrder_readFirst : ∃ s,
    (serverMachine oneHost none).run (secondRead ++ malformedRead ++ workerPass) = some s ∧
      ¬s.ResponsesInOrder 0 := by
  have happended : ((serverMachine oneHost none).run
      (secondRead ++ malformedRead ++ workerPass)).map (·.history.appended 0) =
        some [⟨2, 400⟩, ⟨1, 403⟩] := by decide +kernel
  obtain ⟨s, hrun, hs⟩ := Option.map_eq_some_iff.mp happended
  refine ⟨s, hrun, fun horder => ?_⟩
  rw [ResponsesInOrder, hs] at horder
  exact absurd horder (by decide)

end Server

end Khttp
