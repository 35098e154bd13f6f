import Zhtps.Worker.Ledger

/-!
Closing a slot settles its account: permits go back, its requests are counted as aborted, and the
slot moves from the active set to its free list.
-/

namespace Zhtps.Worker

/-! ### The lists of slots -/

namespace Places

variable {index : Nat} {here : Prop} {members : Nat → Prop}

/-- A slot that leaves a list which has it. -/
theorem removeActive {shared : Shared}
    (h : Places index shared.activeSlots here members) (hhere : here)
    (hloc : Lib.Located shared.activeSlots shared.activePosition) :
    Places index (shared.removeActive index).activeSlots False members ∧
      Lib.Located (shared.removeActive index).activeSlots
        (shared.removeActive index).activePosition := by
  obtain ⟨hnodup, hmem, hothers⟩ := h
  have hget := hloc index (hmem.mpr hhere)
  refine ⟨⟨Lib.nodup_swapRemove hnodup hget, ?_, fun j hj => ?_⟩,
    hloc.swapRemove hnodup (hmem.mpr hhere)⟩
  · rw [iff_false]
    exact fun hin => ((Lib.mem_swapRemove hnodup hget index).mp hin).2 rfl
  · rw [← hothers j hj]
    exact (Lib.mem_swapRemove hnodup hget j).trans ⟨fun hin => hin.1, fun hin => ⟨hin, hj⟩⟩

/-- A slot that enters a list which does not have it. -/
theorem cons {list : List Nat}
    (h : Places index list here members) (hhere : ¬here) :
    Places index (index :: list) True members := by
  obtain ⟨hnodup, hmem, hothers⟩ := h
  refine ⟨List.nodup_cons.mpr ⟨fun hin => hhere (hmem.mp hin), hnodup⟩, by simp, fun j hj => ?_⟩
  rw [List.mem_cons, or_iff_right hj, hothers j hj]

theorem congr {list : List Nat} {there : Prop}
    (h : Places index list here members) (hiff : here ↔ there) :
    Places index list there members :=
  ⟨h.1, h.2.1.trans hiff, h.2.2⟩

end Places

/-- A slot that leaves the idle list. -/
theorem Waits.remove {index : Nat} {idle : Lib.Linked Nat} {here there : Prop}
    {members : Nat → Prop} (h : Waits index idle here members) :
    Waits index (idle.remove index) there members := by
  obtain ⟨list, hlist, -, hmembers⟩ := h
  refine ⟨list.erase index, hlist.remove, fun hin => absurd hin hlist.1.not_mem_erase, ?_⟩
  intro j hj
  rw [← hmembers j hj]
  exact List.mem_erase_of_ne hj

open Connection

/-- What the ledger knows of a stream. -/
def Stream.key (stream : Stream) :=
  ((stream.address, stream.serial), ((stream.permit, stream.assigned), stream.flow),
    (stream.busy, stream.lentFor))

/-! ### Giving permits back -/

namespace Shared

/-- Admission without this many permits. -/
def without (shared : Shared) (admits rejects : Nat) : Shared :=
  { shared with
    admission :=
      { shared.admission with
        active := shared.admission.active - admits
        rejecting := shared.admission.rejecting - rejects } }

theorem releaseAll_eq (shared : Shared) (permit : Option Decision)
    (ha : holds permit .admitted ≤ shared.admission.active)
    (hr : holds permit .reject ≤ shared.admission.rejecting) :
    shared.releaseAll permit = shared.without (holds permit .admitted) (holds permit .reject) := by
  cases permit with
  | none => rfl
  | some decision =>
      cases decision with
      | admitted =>
          have hpos : 0 < shared.admission.active := ha
          simp only [releaseAll, release, Admission.release, hpos, if_true]
          rfl
      | reject =>
          have hpos : 0 < shared.admission.rejecting := hr
          simp only [releaseAll, release, Admission.release, hpos, if_true]
          rfl
      | close => rfl

/-- A stream's storage stays in the heap while it is cached. -/
theorem recycle_eq (shared : Shared) (address : Nat) :
    ∃ free cached heap, shared.recycle address =
        { shared with http2Free := free, http2Cached := cached, http2Heap := heap } ∧
      ∀ live : List Nat, (address :: live ++ shared.http2Free).Perm shared.http2Heap →
        shared.http2Heap.Nodup → shared.http2Cached = shared.http2Free.length →
        shared.http2Cached ≤ 64 →
        (live ++ free).Perm heap ∧ heap.Nodup ∧ cached = free.length ∧ cached ≤ 64 := by
  unfold recycle
  split
  · rename_i hroom
    refine ⟨_, _, _, rfl, fun live hperm hnodup hcached _ => ⟨?_, hnodup, ?_, by omega⟩⟩
    · exact List.perm_middle.trans hperm
    · rw [hcached, List.length_cons]
  · refine ⟨_, _, _, rfl, fun live hperm hnodup hcached hlimit =>
      ⟨?_, hnodup.erase _, hcached, hlimit⟩⟩
    have := hperm.erase address
    rwa [List.cons_append, List.erase_cons_head] at this

/-- A stream that no task borrows leaves with its permit. -/
theorem destroy_eq (shared : Shared) (stream : Stream) (hbusy : stream.busy = false)
    (ha : holds stream.permit .admitted ≤ shared.admission.active)
    (hr : holds stream.permit .reject ≤ shared.admission.rejecting) :
    ∃ completed aborted, shared.destroy stream =
        recycle
          { shared.without (holds stream.permit .admitted) (holds stream.permit .reject) with
            requestsCompletedTotal := completed
            requestsAbortedTotal := aborted
            http2Streams := shared.http2Streams - 1
            http2Destroyed := shared.http2Destroyed ++ [stream.serial] } stream.address ∧
      completed + aborted = shared.requestsCompletedTotal + shared.requestsAbortedTotal + 1 := by
  unfold destroy
  dsimp only
  rw [releaseAll_eq _ _ (by exact ha) (by exact hr), hbusy]
  refine ⟨_, _, rfl, ?_⟩
  dsimp only
  split <;> omega

end Shared

namespace Cell

/-- The responses that remain are aborted, one permit each. -/
theorem abortEntries_eq (entries : List ResponseBatch.Entry) :
    ∀ shared : Shared, entries.length ≤ shared.admission.active →
      abortEntries shared entries =
        { shared.without entries.length 0 with
          requestsAbortedTotal := shared.requestsAbortedTotal + entries.length } := by
  induction entries with
  | nil => exact fun shared _ => rfl
  | cons entry rest ih =>
      intro shared hle
      have hrelease := Shared.releaseAll_eq shared (some .admitted)
        (by simp only [holds, if_true]; simp at hle; omega) (by simp [holds])
      simp only [Shared.releaseAll, holds, if_true, reduceCtorEq, Option.some.injEq, if_false]
        at hrelease
      unfold abortEntries
      rw [hrelease, ih]
      · simp only [Shared.without, List.length_cons, Nat.sub_zero, Nat.sub_sub]
        rw [Nat.add_assoc, Nat.add_comm 1]
      · simp only [Shared.without, List.length_cons] at hle ⊢
        omega

/-- The entries that a send has covered are completed, one permit each. -/
theorem completeEntries_eq (sent : Nat) (entries : List ResponseBatch.Entry) :
    ∀ (shared : Shared) (completed : Nat), entries.length ≤ shared.admission.active →
      ∃ count ≤ entries.length, completeEntries shared sent entries completed =
          ({ shared.without count 0 with
            requestsCompletedTotal := shared.requestsCompletedTotal + count }, completed + count) ∧
        ((∀ entry ∈ entries, entry.stop ≤ sent) → count = entries.length) := by
  induction entries with
  | nil => exact fun shared completed _ => ⟨0, Nat.le_refl _, rfl, fun _ => rfl⟩
  | cons entry rest ih =>
      intro shared completed hle
      unfold completeEntries
      split
      · rename_i hlt
        refine ⟨0, Nat.zero_le _, rfl, fun hall => ?_⟩
        have := hall entry List.mem_cons_self
        omega
      · have hrelease := Shared.releaseAll_eq
          { shared with requestsCompletedTotal := shared.requestsCompletedTotal + 1 }
          (some .admitted) (by simp only [holds, if_true]; simp at hle; omega) (by simp [holds])
        simp only [Shared.releaseAll, holds, if_true, reduceCtorEq, Option.some.injEq, if_false]
          at hrelease
        rw [hrelease]
        obtain ⟨count, hcount, heq, hall⟩ := ih
          (Shared.without
            { shared with requestsCompletedTotal := shared.requestsCompletedTotal + 1 } 1 0)
          (completed + 1)
          (by simp only [Shared.without, List.length_cons] at hle ⊢; omega)
        refine ⟨count + 1, by simpa using hcount, ?_, fun h => ?_⟩
        · rw [heq]
          simp only [Shared.without, Nat.sub_zero, Nat.sub_sub, Nat.add_assoc, Nat.add_comm 1]
        · rw [hall fun e he => h e (List.mem_cons_of_mem _ he), List.length_cons]

/-! ### The account of a slot that closes -/

variable {config : Config} {others : Others} {index : Nat} {resting : Bool} {cell : Cell}

theorem busyStreams_eq (c : Connection) :
    c.busyStreams = c.streams.countP fun stream => stream.busy := by
  unfold busyStreams streams
  cases c.http2 <;> rfl

/-- Nothing is lent when no stream is busy. -/
theorem lent_eq_nil {c : Connection} (hlent : ∀ stream ∈ c.streams, stream.Lent)
    (hbusy : c.busyStreams = 0) :
    (∀ stream ∈ c.streams, stream.busy = false) ∧
      (c.streams.filterMap fun stream =>
        stream.lentFor.map fun stage => Loan.stream stream.address stage) = [] := by
  rw [busyStreams_eq, List.countP_eq_zero] at hbusy
  have hfree : ∀ stream ∈ c.streams, stream.Free := fun stream hmem =>
    (hlent stream hmem).free (by simpa using hbusy stream hmem)
  refine ⟨fun stream hmem => (hfree stream hmem).1, ?_⟩
  rw [List.filterMap_eq_nil_iff]
  intro stream hmem
  rw [(hfree stream hmem).2, Option.map_none]

/-- A session whose streams are the same to the ledger, in any order. -/
theorem Ledger.restream (h : cell.Ledger config others index resting) {session next : Session}
    (hsession : cell.connection.http2 = some session)
    (hkeys : (next.streams.map Stream.key).Perm (session.streams.map Stream.key))
    (hcount : next.count = session.count) (hlent : ∀ stream ∈ next.streams, stream.Lent) :
    (cell.setConnection { cell.connection with http2 := some next }).Ledger config others index
      resting := by
  have hold : cell.connection.streams = session.streams := by simp [Connection.streams, hsession]
  obtain ⟨⟨hactive, hrejecting, htotal⟩, hsane, ⟨htasks, hloans, htagged, htickets⟩, hlisted,
    ⟨hheap, hnodup, hcached, hlimit, hbegun, hstreams, hbound⟩, hstocked,
    hbatch, hformed, hcounts, hbacked, hvacant, hadmin⟩ := h
  have hsum (kind : Decision) : streamHolds next.streams kind = streamHolds session.streams kind := by
    have := (hkeys.map fun key => holds key.2.1.1.1 kind).sum_nat
    rwa [List.map_map, List.map_map] at this
  have hlength : next.streams.length = session.streams.length := by
    simpa only [List.length_map] using hkeys.length_eq
  have haddresses := hkeys.map fun key => key.1.1
  have hserials := hkeys.map fun key => key.1.2
  have hloaned := hkeys.filterMap fun key =>
    key.2.2.2.map fun stage => Loan.stream key.1.1 stage
  simp only [List.map_map, List.filterMap_map, Function.comp_def] at haddresses hserials hloaned
  simp only [admits, rejects, live, hold] at hactive hrejecting htotal
  simp only [loans, hold] at hloans
  simp only [addresses, serials, hold] at hheap hbegun hstreams
  refine ⟨⟨?_, ?_, ?_⟩, hsane, ⟨htasks, ?_, htagged, htickets⟩, hlisted,
    ⟨?_, hnodup, hcached, hlimit, ?_, ?_, hbound⟩, hstocked, hbatch, ?_, ?_, hbacked, hvacant, ?_⟩
  · simp only [setConnection, admits, Connection.streams, batched, hsum] at hactive ⊢
    exact hactive
  · simp only [setConnection, rejects, Connection.streams, hsum] at hrejecting ⊢
    exact hrejecting
  · simp only [setConnection, live, requesting, batched, Connection.streams, hlength] at htotal ⊢
    exact htotal
  · refine hloans.trans ?_
    exact hloaned.symm.append_left _
  · exact List.Perm.trans ((haddresses.append_right _).append_right _) hheap
  · exact List.Perm.trans ((hserials.append_right _).append_right _) hbegun
  · exact hstreams.trans (by rw [← hlength]; rfl)
  · intro stream hmem
    refine ⟨hlent stream hmem, ?_⟩
    obtain ⟨other, hother, hkey⟩ := List.mem_map.mp (hkeys.mem_iff.mp (List.mem_map_of_mem hmem))
    obtain ⟨-, hassigned, hmetered⟩ := hformed other (by rw [hold]; exact hother)
    simp only [Stream.key, Prod.mk.injEq] at hkey
    rw [Stream.Assigned, hkey.2.1.1.1, hkey.2.1.1.2] at hassigned
    exact ⟨hassigned, hmetered.of_flow hkey.2.1.2.symm⟩
  · intro other hother
    cases hother
    rw [hcount, hlength]
    exact hcounts session hsession
  · intro hkind
    have := (hadmin hkind).1
    rw [hsession] at this
    cases this

/-- A stream that leaves takes its permit, its request and its storage with it. -/
theorem destroyStream_ledger {session : Session} {stream : Stream} {rest : List Stream}
    (hsession : cell.connection.http2 = some session)
    (h : (cell.setStreams (stream :: rest)).Ledger config others index resting)
    (hbusy : stream.busy = false) :
    ((cell.destroyStream stream).setStreams rest).Ledger config others index resting := by
  simp only [setStreams, setConnection, hsession, Option.map_some] at h
  obtain ⟨⟨hactive, hrejecting, htotal⟩, hsane, ⟨htasks, hloans, htagged, htickets⟩, hlisted,
    ⟨hheap, hnodup, hcached, hlimit, hbegun, hcount, hbound⟩, hstocked,
    hbatch, hstreams, hcounts, hbacked, hvacant, hadmin⟩ := h
  have hfree : stream.Free := (hstreams stream List.mem_cons_self).1.free hbusy
  simp only [admits, rejects, live, Connection.streams, streamHolds, List.map_cons, List.sum_cons,
    List.length_cons, batched, requesting] at hactive hrejecting htotal hcount
  simp only [addresses, serials, Connection.streams, List.map_cons] at hheap hbegun
  obtain ⟨completed, aborted, hdestroy, hsum⟩ := Shared.destroy_eq cell.shared stream hbusy
    (by omega) (by omega)
  obtain ⟨free, cached, heap, hrecycle, hkeep⟩ := Shared.recycle_eq
    { cell.shared.without (holds stream.permit .admitted) (holds stream.permit .reject) with
      requestsCompletedTotal := completed
      requestsAbortedTotal := aborted
      http2Streams := cell.shared.http2Streams - 1
      http2Destroyed := cell.shared.http2Destroyed ++ [stream.serial] } stream.address
  obtain ⟨hheap', hnodup', hcached', hlimit'⟩ := hkeep
    (rest.map (fun stream => stream.address) ++ others.addresses) hheap hnodup hcached hlimit
  rw [hrecycle] at hdestroy
  simp only [setStreams, setConnection, destroyStream, hsession, Option.map_some, hdestroy]
  refine ⟨⟨?_, ?_, ?_⟩, hsane, ⟨htasks, ?_, htagged, htickets⟩, hlisted,
    ⟨hheap', hnodup', hcached', hlimit', ?_, ?_, ?_⟩, hstocked, hbatch, ?_, ?_, hbacked, hvacant, ?_⟩
  · simp only [Shared.without, admits, batched, Connection.streams, streamHolds]
    omega
  · simp only [Shared.without, rejects, Connection.streams, streamHolds]
    omega
  · simp only [Shared.without, live, requesting, batched, Connection.streams]
    omega
  · refine hloans.trans (List.Perm.of_eq ?_)
    simp only [loans, Connection.streams, List.filterMap_cons, hfree.2, Option.map_none]
  · refine List.Perm.trans ?_ hbegun
    simp only [serials, Connection.streams, ← List.append_assoc]
    exact List.perm_append_singleton _ _
  · simp only [Connection.streams]
    omega
  · exact Nat.le_trans (Nat.sub_le _ _) hbound
  · exact fun other hmem => hstreams other (List.mem_cons_of_mem _ hmem)
  · intro other hother
    cases hother
    have hone := hcounts _ rfl
    simp only [List.length_cons] at hone ⊢
    omega
  · intro hkind
    cases (hadmin hkind).1

/-- All streams leave. -/
theorem destroyAll_ledger (streams : List Stream)
    (hbusy : ∀ stream ∈ streams, stream.busy = false) :
    ∀ {cell : Cell} {session : Session}, cell.connection.http2 = some session →
      (cell.setStreams streams).Ledger config others index resting →
      Ledger config others index resting
        ⟨cell.shared.destroyAll streams, { cell.connection with http2 := none }⟩ := by
  induction streams with
  | nil =>
      intro cell session hsession h
      simp only [setStreams, setConnection, hsession, Option.map_some] at h
      obtain ⟨haccounted, hsane, hloaned, hlisted, hhosted, hstocked, hbatch, hstreams, -, hbacked,
        hvacant, hadmin⟩ := h
      exact ⟨haccounted, hsane, hloaned, hlisted, hhosted, hstocked, hbatch, hstreams, nofun,
        hbacked, hvacant, fun hkind => ⟨rfl, (hadmin hkind).2⟩⟩
  | cons stream rest ih =>
      intro cell session hsession h
      have hnext := destroyStream_ledger hsession h (hbusy stream List.mem_cons_self)
      have hsession' : (cell.destroyStream stream).connection.http2 =
          some { session with count := session.count - 1 } := by
        simp only [destroyStream, hsession, Option.map_some]
      have hrest := ih (fun s hs => hbusy s (List.mem_cons_of_mem _ hs)) hsession' hnext
      exact hrest

theorem releaseHttp2_ledger (h : cell.Ledger config others index resting)
    (hbusy : cell.connection.busyStreams = 0) :
    cell.releaseHttp2.Ledger config others index resting := by
  unfold releaseHttp2
  split
  · exact h
  · rename_i session hsession
    have hfree := (lent_eq_nil h.lent hbusy).1
    rw [show cell.connection.streams = session.streams by simp [Connection.streams, hsession]]
      at hfree
    refine destroyAll_ledger session.streams hfree hsession ?_
    rw [setStreams, hsession]
    refine h.restream hsession (List.Perm.refl _) rfl ?_
    exact fun stream hmem => h.lent stream (by simpa [Connection.streams, hsession] using hmem)

theorem abortBatch_ledger (h : cell.Ledger config others index resting) :
    cell.abortBatch.Ledger config others index resting := by
  unfold abortBatch
  split
  · exact h
  · rename_i batch hsome
    obtain ⟨⟨hactive, hrejecting, htotal⟩, hsane, hloaned, ⟨hact, hloc, hpub, hadm, hwaits⟩,
      hhosted, hstocked, -, hformed⟩ := h
    have hlen : (batch.responses.drop batch.completed).length = cell.connection.batched := by
      simp [batched, hsome, ResponseBatch.count]
    rw [abortEntries_eq _ _ (by rw [hlen]; simp only [admits] at hactive; omega), hlen]
    refine ⟨⟨?_, hrejecting, ?_⟩, hsane, hloaned, ⟨hact, hloc, hpub, hadm, ?_⟩, hhosted, hstocked,
      by rintro _ ⟨⟩, hformed⟩
    · show cell.shared.admission.active - cell.connection.batched =
        holds cell.connection.permit .admitted + 0 +
          streamHolds cell.connection.streams .admitted + others.admits
      simp only [admits] at hactive
      omega
    · show cell.shared.requestsTotal = cell.shared.requestsCompletedTotal +
        (cell.shared.requestsAbortedTotal + cell.connection.batched) +
          (cell.connection.requesting.toNat + 0 + cell.connection.streams.length) + others.live
      simp only [live] at htotal
      omega
    · obtain ⟨list, hlist, hidle, hidles⟩ := hwaits
      exact ⟨list, hlist, fun hin => ⟨(hidle hin).1, (hidle hin).2.1, (hidle hin).2.2.1, rfl,
        (hidle hin).2.2.2.2⟩, hidles⟩

/-! ### Buffers that go back -/

/-- A stream's buffer leaves the budget together with its exchange. -/
theorem releaseApplication_ledger (h : cell.Ledger config others index resting)
    (hbusy : cell.connection.responseStreamBusy = false) :
    cell.releaseApplication.Ledger config others index resting := by
  unfold releaseApplication
  split
  · exact h
  · rw [show cell.check (!cell.connection.responseStreamBusy) .busy = cell by simp [check, hbusy]]
    obtain ⟨haccounted, hsane, hloaned, hlisted, hhosted, ⟨hactive, hbudget, hpools, hsmall⟩,
      hbatch, hstreams, hcounts, -, hvacant, hadmin⟩ := h
    refine ⟨haccounted, hsane, hloaned, hlisted, hhosted,
      ⟨?_, Nat.le_trans (Nat.sub_le _ _) hbudget, hpools, hsmall⟩, hbatch, hstreams, hcounts, rfl,
      fun hnone => ⟨(hvacant hnone).1, rfl⟩, hadmin⟩
    simp only [charge] at hactive
    simp only [freeResponseStream, setConnection, charge]
    omega

/-- What stays and what goes back is all that was leased. -/
theorem keptBuffers_perm (c : Connection) (closing : Bool) :
    (c.keptBuffers closing ++ c.returnedBuffers closing).Perm c.largeBuffers := by
  unfold keptBuffers returnedBuffers
  split
  · exact List.filter_append_perm _ _
  · exact List.Perm.refl _

/-- Every block goes back to the pool of its kind. -/
theorem returnBlocks_eq (returned : List (Buffer × Nat)) :
    ∀ (buffers : Buffers) (lent : Buffer → Nat),
      (∀ kind, (buffers.pools kind).size = config.full kind ∧ (buffers.pools kind).Valid
        (returned.countP (fun lease => lease.1 == kind) + lent kind)) →
      ∃ pools, Shared.returnBlocks buffers returned =
          { buffers with
            active := buffers.active - (returned.map fun lease => config.full lease.1).sum
            pools := pools } ∧
        ∀ kind, (pools kind).size = config.full kind ∧ (pools kind).Valid (lent kind) := by
  induction returned with
  | nil =>
      intro buffers lent h
      refine ⟨buffers.pools, rfl, fun kind => ?_⟩
      simpa using h kind
  | cons lease rest ih =>
      obtain ⟨kind, block⟩ := lease
      intro buffers lent h
      have hput : ∀ other,
          (Function.update buffers.pools kind ((buffers.pools kind).put block) other).size =
              config.full other ∧
            (Function.update buffers.pools kind ((buffers.pools kind).put block) other).Valid
              (rest.countP (fun lease => lease.1 == other) + lent other) := by
        intro other
        obtain ⟨hsize, hvalid⟩ := h other
        rw [List.countP_cons] at hvalid
        by_cases hother : other = kind
        · subst hother
          rw [if_pos (beq_self_eq_true _), Nat.add_right_comm] at hvalid
          simp only [Function.update_self, BufferPool.put_size]
          exact ⟨hsize, hvalid.put block⟩
        · rw [if_neg (by simpa using Ne.symm hother)] at hvalid
          simp only [Function.update_of_ne hother]
          exact ⟨hsize, hvalid⟩
      obtain ⟨pools, heq, hpools⟩ := ih
        { buffers with
          active := buffers.active - (buffers.pools kind).size
          pools := Function.update buffers.pools kind ((buffers.pools kind).put block) } lent hput
      refine ⟨pools, ?_, hpools⟩
      rw [Shared.returnBlocks, heq, (h kind).1, List.map_cons, List.sum_cons, Nat.sub_sub]

theorem releaseBuffers_stocked (closing : Bool) (h : cell.Stocked config others) :
    (cell.releaseBuffers closing).Stocked config others := by
  obtain ⟨hactive, hbudget, hpools, hsmall⟩ := h
  have hsplit := keptBuffers_perm cell.connection closing
  have hcount := fun kind : Buffer => hsplit.countP_eq fun lease => lease.1 == kind
  have hsum := (hsplit.map fun lease => config.full lease.1).sum_nat
  simp only [List.countP_append] at hcount
  simp only [List.map_append, List.sum_append] at hsum
  have hlent : ∀ kind, (cell.shared.buffers.pools kind).size = config.full kind ∧
      (cell.shared.buffers.pools kind).Valid
        ((cell.connection.returnedBuffers closing).countP (fun lease => lease.1 == kind) +
          ((cell.connection.keptBuffers closing).countP (fun lease => lease.1 == kind) +
            others.blocks kind)) := by
    intro kind
    have hvalid := (hpools kind).2
    rw [blocks, ← hcount kind] at hvalid
    refine ⟨(hpools kind).1, ?_⟩
    rwa [← Nat.add_assoc, Nat.add_comm (List.countP _ (cell.connection.returnedBuffers closing))]
  obtain ⟨pools, heq, hnew⟩ := returnBlocks_eq (cell.connection.returnedBuffers closing)
    cell.shared.buffers _ hlent
  rw [releaseBuffers, heq]
  refine ⟨?_, Nat.le_trans (Nat.sub_le _ _) hbudget, hnew, hsmall⟩
  simp only [charge] at hactive ⊢
  omega

theorem releaseBuffers_ledger (closing : Bool) (h : cell.Ledger config others index resting) :
    (cell.releaseBuffers closing).Ledger config others index resting := by
  obtain ⟨haccounted, hsane, hloaned, hlisted, hhosted, hstocked, hformed⟩ := h
  exact ⟨haccounted, hsane, hloaned, hlisted, hhosted, releaseBuffers_stocked closing hstocked,
    hformed⟩

/-- The block of a slot's own buffers goes back. -/
theorem releaseConnectionBuffers_ledger (h : cell.Ledger config others index resting) :
    cell.releaseConnectionBuffers.Ledger config others index resting := by
  unfold releaseConnectionBuffers
  split
  · exact h
  · rename_i block hblock
    obtain ⟨haccounted, hsane, hloaned, hlisted, hhosted, ⟨hactive, hbudget, hpools, hsmall⟩,
      hbatch, hstreams, hcounts, hbacked, hvacant, hadmin⟩ := h
    rw [hblock, Option.isSome_some, Bool.toNat_true, Nat.add_comm] at hsmall
    refine ⟨haccounted, hsane, hloaned, hlisted, hhosted, ⟨hactive, hbudget, hpools, ?_⟩,
      hbatch, hstreams, hcounts, hbacked, fun hnone => ⟨rfl, (hvacant hnone).2⟩, hadmin⟩
    rw [Option.isSome_none, Bool.toNat_false, Nat.zero_add]
    exact hsmall.put block

/-! ### The slot goes free -/

/-- The free list is chosen by the slot's kind. -/
theorem freeSlot_eq (index : Nat) (cell : Cell) :
    cell.freeSlot index =
      { shared :=
          { cell.shared with
            publicFree :=
              if cell.connection.admin then cell.shared.publicFree
              else index :: cell.shared.publicFree
            adminFree :=
              if cell.connection.admin then index :: cell.shared.adminFree
              else cell.shared.adminFree }
        connection := { cell.connection with fd := none, tls := none } } := by
  unfold freeSlot
  split
  · rfl
  · rfl

/-- The slot goes from the active set to the free list of its kind. -/
theorem free_listed (h : cell.Listed others index) (hfd : cell.connection.fd.isSome = true)
    (hidle : cell.shared.idle.queued index = false) {c : Connection} (hc : c.fd = none)
    (hadmin : c.admin = cell.connection.admin) :
    Listed others index ⟨((cell.freeSlot index).shared).removeActive index, c⟩ := by
  obtain ⟨hactive, hloc, hpublic, hadminFree, hwaits⟩ := h
  have hopen : ¬(cell.connection.fd = none) := by
    intro hnone
    simp [hnone] at hfd
  obtain ⟨hactive', hloc'⟩ := hactive.removeActive hfd hloc.1
  unfold freeSlot
  cases hkind : cell.connection.admin with
  | true =>
      refine ⟨hactive'.congr (by simp [hc]), ⟨hloc', hadmin.trans hloc.2⟩, ?_, ?_,
        hwaits.of_not_queued hidle⟩
      · exact hpublic.congr (by simp [hc, hadmin, hopen, hkind])
      · exact (hadminFree.cons fun hh => hopen hh.1).congr (by simp [hc, hadmin, hkind])
  | false =>
      refine ⟨hactive'.congr (by simp [hc]), ⟨hloc', hadmin.trans hloc.2⟩, ?_, ?_,
        hwaits.of_not_queued hidle⟩
      · exact (hpublic.cons fun hh => hopen hh.1).congr (by simp [hc, hadmin, hkind])
      · exact hadminFree.congr (by simp [hc, hadmin, hopen, hkind])

theorem countAborted_eq (hfd : cell.connection.fd.isSome = true) :
    cell.countAborted =
      { cell with
        shared :=
          { cell.shared with
            requestsAbortedTotal :=
              cell.shared.requestsAbortedTotal + cell.connection.requesting.toNat } } := by
  unfold countAborted requesting
  rw [hfd, Bool.true_and]
  split
  · rename_i hreq
    rw [hreq]
    rfl
  · rename_i hreq
    rw [Bool.not_eq_true] at hreq
    rw [hreq]
    rfl

/-- Requests that count as aborted. -/
def addAborted (count : Nat) (cell : Cell) : Cell :=
  { cell with
    shared :=
      { cell.shared with requestsAbortedTotal := cell.shared.requestsAbortedTotal + count } }

/-- The last steps of `finishClose`, for a slot that has given its storage back. -/
def leave (index : Nat) (cell : Cell) : Cell :=
  (((cell.addAborted cell.connection.requesting.toNat).freeSlot index).releasePermit).leaveActive
    index

/-- The slot's own storage goes back. -/
def yield (cell : Cell) : Cell :=
  let closed := (cell.releaseHttp2.abortBatch.releaseApplication).releaseBuffers true
  (closed.setConnection closed.connection.releaseRequest).releaseConnectionBuffers

theorem addAborted_releaseConnectionBuffers (count : Nat) (cell : Cell) :
    (cell.addAborted count).releaseConnectionBuffers =
      cell.releaseConnectionBuffers.addAborted count := by
  simp only [releaseConnectionBuffers, addAborted]
  cases cell.connection.smallBlock <;> rfl

theorem requesting_releaseRequest (c : Connection) :
    c.releaseRequest.requesting = c.requesting := by
  obtain ⟨lease, hlease⟩ := releaseRequest_eq c
  rw [hlease]
  rfl

/-- It does not matter when the open request is counted. -/
theorem finishClose_eq (hp : cell.connection.pending = 0)
    (hfd : cell.connection.fd.isSome = true) :
    cell.finishClose index = cell.yield.leave index := by
  have hopen : cell.connection.fd ≠ none := by
    intro hnone
    simp [hnone] at hfd
  obtain ⟨_, _, happ⟩ := releaseApplication_connection cell.releaseHttp2.abortBatch
  rw [abortBatch_connection, releaseHttp2_connection] at happ
  have hopened : cell.releaseHttp2.abortBatch.releaseApplication.connection.fd.isSome = true := by
    rw [happ]
    exact hfd
  have hcount := countAborted_eq hopened
  have hsame : cell.yield.connection.requesting =
      cell.releaseHttp2.abortBatch.releaseApplication.connection.requesting := by
    dsimp only [yield]
    rw [releaseConnectionBuffers_connection]
    exact requesting_releaseRequest _
  rw [finishClose, if_neg (by simp [hp, hopen])]
  dsimp only
  rw [hcount, leave, hsame, yield, ← addAborted_releaseConnectionBuffers]
  rfl

/-- A slot that holds nothing any more is settled when its permit and its request are. -/
theorem Ledger.vacate (h : cell.Ledger config others index false)
    (hbatch : cell.connection.batch = none) (hhttp2 : cell.connection.http2 = none)
    (hbusy : cell.connection.responseStreamBusy = false)
    (hsmall : cell.connection.smallBlock = none)
    (hbuffer : cell.connection.responseStreamBuffer = 0) {publicFree adminFree active : List Nat}
    {position : Nat → Nat}
    (hlisted : Listed others index
      { shared :=
          { cell.shared with
            publicFree := publicFree
            adminFree := adminFree
            activeSlots := active
            activePosition := position }
        connection := { cell.connection with fd := none, tls := none } }) :
    Ledger config others index true
      { shared :=
          { cell.shared.without (holds cell.connection.permit .admitted)
              (holds cell.connection.permit .reject) with
            requestsAbortedTotal :=
              cell.shared.requestsAbortedTotal + cell.connection.requesting.toNat
            publicFree := publicFree
            adminFree := adminFree
            activeSlots := active
            activePosition := position }
        connection := { cell.connection with fd := none, tls := none, permit := none } } := by
  obtain ⟨⟨hactive, hrejecting, hall⟩, hsane, ⟨htasks, hperm, htagged, htickets⟩, -, hhosted,
    hstocked, hclear, hstreams, hcounts, hbacked, -, hadmin⟩ := h
  simp only [admits, rejects, live, batched, streams, streamHolds, hbatch, hhttp2, List.map_nil,
    List.sum_nil, List.length_nil] at hactive hrejecting hall
  refine ⟨⟨?_, ?_, ?_⟩, hsane, ⟨htasks, ?_, htagged, htickets⟩, hlisted, hhosted, hstocked, hclear,
    hstreams, hcounts, hbacked, fun _ => ⟨hsmall, hbuffer⟩, hadmin⟩
  · simp only [Shared.without, admits, batched, streams, streamHolds, hbatch, hhttp2, holds,
      List.map_nil, List.sum_nil, reduceCtorEq, if_false] at hactive ⊢
    omega
  · simp only [Shared.without, rejects, streams, streamHolds, hhttp2, holds, List.map_nil,
      List.sum_nil, reduceCtorEq, if_false] at hrejecting ⊢
    omega
  · simp only [Shared.without, live, requesting, batched, streams, hbatch, hhttp2,
      Option.isSome_none, Bool.false_and, Bool.toNat_false, List.length_nil] at hall ⊢
    omega
  · simp only [loans, streams, hhttp2, hbusy, Option.isSome_none, Bool.false_eq_true, false_and,
      and_false, if_false, List.filterMap_nil, List.append_nil] at hperm ⊢
    exact hperm

theorem leave_ledger (h : cell.Ledger config others index false)
    (hfd : cell.connection.fd.isSome = true) (hphase : cell.connection.phase = .canceling)
    (hbatch : cell.connection.batch = none) (hhttp2 : cell.connection.http2 = none)
    (hbusy : cell.connection.responseStreamBusy = false)
    (hsmall : cell.connection.smallBlock = none)
    (hbuffer : cell.connection.responseStreamBuffer = 0) :
    (cell.leave index).Ledger config others index true := by
  have hlists := free_listed (c := { cell.connection with fd := none, tls := none }) h.listed hfd
    (h.not_idle_of_phase (by simp [hphase])) rfl rfl
  have hactive : holds cell.connection.permit .admitted ≤ cell.shared.admission.active := by
    have := h.accounted.1
    simp only [admits] at this
    omega
  have hrejecting : holds cell.connection.permit .reject ≤ cell.shared.admission.rejecting := by
    have := h.accounted.2.1
    simp only [rejects] at this
    omega
  rw [freeSlot_eq] at hlists
  rw [leave, freeSlot_eq]
  simp only [addAborted, releasePermit, leaveActive]
  rw [Shared.releaseAll_eq _ _ (by exact hactive) (by exact hrejecting)]
  exact h.vacate hbatch hhttp2 hbusy hsmall hbuffer hlists

/-- The exchange goes with its buffer. -/
theorem releaseApplication_unbacked (h : cell.connection.backed = true) :
    cell.releaseApplication.connection.responseStreamBuffer = 0 := by
  unfold releaseApplication
  split
  · rename_i hkeep
    simp only [backed, Bool.or_eq_true, Bool.and_eq_true, beq_iff_eq] at h
    rcases h with hzero | ⟨hinit, hpublic⟩
    · exact hzero
    · simp [hinit] at hkeep
      simp [hkeep] at hpublic
  · rfl

theorem yield_ledger (h : cell.Ledger config others index resting) (hb : Booked cell.connection)
    (hp : cell.connection.pending = 0) : cell.yield.Ledger config others index resting := by
  obtain ⟨-, hbusy, hstreams, -⟩ := hb.empty hp
  have hclosed := releaseApplication_ledger (abortBatch_ledger (releaseHttp2_ledger h hstreams))
    (by rw [abortBatch_connection, releaseHttp2_connection]; exact hbusy)
  refine releaseConnectionBuffers_ledger ?_
  have hreleased := releaseBuffers_ledger true hclosed
  obtain ⟨lease, hlease⟩ := releaseRequest_eq
    ((cell.releaseHttp2.abortBatch.releaseApplication).releaseBuffers true).connection
  rw [hlease]
  exact hreleased

/-- What is left of a slot's connection after `yield`. -/
theorem yield_connection (h : cell.connection.backed = true) :
    ∃ initialized lease, cell.yield.connection =
      { cell.connection with
        http2 := none
        batch := none
        responseStreamBuffer := 0
        applicationInitialized := initialized
        largeBuffers := []
        input := []
        lease := lease
        smallBlock := none } := by
  have hzero : cell.releaseHttp2.abortBatch.releaseApplication.connection.responseStreamBuffer = 0 := by
    refine releaseApplication_unbacked ?_
    rw [abortBatch_connection, releaseHttp2_connection]
    exact h
  obtain ⟨buffer, initialized, happ⟩ :=
    releaseApplication_connection cell.releaseHttp2.abortBatch
  rw [abortBatch_connection, releaseHttp2_connection] at happ
  have hbuffer : buffer = 0 := by
    rw [happ] at hzero
    exact hzero
  obtain ⟨lease, hlease⟩ := releaseRequest_eq
    ((cell.releaseHttp2.abortBatch.releaseApplication).releaseBuffers true).connection
  refine ⟨initialized, lease, ?_⟩
  dsimp only [yield]
  rw [releaseConnectionBuffers_connection]
  dsimp only [setConnection]
  rw [hlease]
  dsimp only [releaseBuffers]
  rw [happ, hbuffer]
  rfl

/-- Once nothing is pending the slot is freed, and its open request counts as aborted. -/
theorem finishClose_ledger (h : cell.Ledger config others index false) (hb : Booked cell.connection)
    (hfd : cell.connection.fd.isSome = true) (hphase : cell.connection.phase = .canceling) :
    (cell.finishClose index).Ledger config others index true := by
  by_cases hp : cell.connection.pending = 0
  · obtain ⟨-, hbusy, -, -⟩ := hb.empty hp
    obtain ⟨initialized, lease, hc⟩ := yield_connection h.formed.2.2.2.1
    rw [finishClose_eq hp hfd]
    refine leave_ledger (yield_ledger h hb hp) ?_ ?_ ?_ ?_ ?_ ?_ ?_ <;> rw [hc]
    · exact hfd
    · exact hphase
    · exact hbusy
  · rw [finishClose_of_pending (Or.inl hp)]
    exact h.rest (by simp [hphase])

/-- The slot as it leaves the idle list. -/
theorem removeIdle_listed (h : cell.Listed others index) {c : Connection}
    (hfd : c.fd = cell.connection.fd) (hadmin : c.admin = cell.connection.admin) :
    Listed others index ⟨cell.shared.removeIdle index, c⟩ := by
  obtain ⟨hact, hloc, hpub, hadm, hwaits⟩ := h
  exact ⟨by rw [hfd]; exact hact, ⟨hloc.1, hadmin.trans hloc.2⟩, by rw [hfd, hadmin]; exact hpub,
    by rw [hfd, hadmin]; exact hadm, hwaits.remove⟩

theorem streams_abort (c : Connection) (phase : Phase) (canceled : Bool) :
    Connection.streams
        { c with canceled := canceled, http2 := c.http2.map Session.abort, phase := phase } =
      c.streams.map fun stream =>
        { stream with closed := true, closeCode := 8, canceled := true } := by
  unfold streams
  cases c.http2 <;> rfl

theorem abandon_ledger (h : cell.Ledger config others index false) :
    (cell.abandon index).Ledger config others index false := by
  obtain ⟨⟨hactive, hrejecting, htotal⟩, hsane, ⟨htasks, hperm, htagged, htickets⟩, hlisted,
    hhosted, hstocked, hbatch, hformed, hcounts, hbacked, hvacant, hadmin⟩ := h
  have hstreams := streams_abort cell.connection .canceling true
  refine ⟨⟨?_, ?_, ?_⟩, hsane, ⟨htasks, ?_, htagged, htickets⟩, removeIdle_listed hlisted rfl rfl,
    ?_, hstocked, hbatch, ?_, ?_, hbacked, hvacant, ?_⟩
  · simpa only [abandon, Shared.removeIdle, admits, batched, hstreams, streamHolds, List.map_map,
      Function.comp_def] using hactive
  · simpa only [abandon, Shared.removeIdle, rejects, hstreams, streamHolds, List.map_map,
      Function.comp_def] using hrejecting
  · simpa only [abandon, Shared.removeIdle, live, requesting, batched, hstreams, List.length_map]
      using htotal
  · simp only [abandon, Shared.removeIdle, loans, hstreams, List.filterMap_map, Function.comp_def,
      Bool.false_eq_true, false_and, if_false] at hperm ⊢
    exact hperm
  · simpa only [Hosted, abandon, Shared.removeIdle, addresses, serials, hstreams, List.map_map,
      List.length_map, Function.comp_def] using hhosted
  · rw [abandon, hstreams]
    intro stream hmem
    obtain ⟨old, hold, rfl⟩ := List.mem_map.mp hmem
    exact hformed old hold
  · intro session hsession
    obtain ⟨old, hold, rfl⟩ := Option.map_eq_some_iff.mp hsession
    simpa only [Session.abort, List.length_map] using hcounts old hold
  · intro hkind
    refine ⟨?_, (hadmin hkind).2⟩
    show cell.connection.http2.map Session.abort = none
    rw [(hadmin hkind).1, Option.map_none]

theorem cancelReceive_ledger (h : cell.Ledger config others index resting) :
    cell.cancelReceive.Ledger config others index resting := by
  unfold cancelReceive
  split
  · exact h
  · exact h

theorem cancelSend_ledger (h : cell.Ledger config others index resting) :
    cell.cancelSend.Ledger config others index resting := by
  unfold cancelSend
  split
  · exact h
  · exact h

/-- The slot as `finishClose` finds it in `forceClose`. -/
theorem cancel_connection (index : Nat) (cell : Cell) :
    ∃ kernel pending receive send, (cell.abandon index).cancelReceive.cancelSend.connection =
      { (cell.abandon index).connection with
        kernel := kernel
        pending := pending
        cancelReceivePending := receive
        cancelSendPending := send } := by
  obtain ⟨kernel, pending, send, hs⟩ := cancelSend_connection (cell.abandon index).cancelReceive
  obtain ⟨_, _, receive, hr⟩ := cancelReceive_connection (cell.abandon index)
  exact ⟨kernel, pending, receive, send, by rw [hs, hr]⟩

theorem forceClose_ledger (h : cell.Ledger config others index false) (hb : Booked cell.connection)
    (hfd : cell.connection.fd.isSome = true) :
    (cell.forceClose index).Ledger config others index true := by
  obtain ⟨_, _, _, _, hc⟩ := cancel_connection index cell
  rw [forceClose_eq]
  refine finishClose_ledger (cancelSend_ledger (cancelReceive_ledger (abandon_ledger h)))
    (cancelSend_booked (cancelReceive_booked (abandon_booked hb))) ?_ ?_
  · rw [hc]
    exact hfd
  · rw [hc]
    rfl

/-- A slot that closes has only closed streams, or none. -/
theorem finishClose_sounds (h : cell.connection.Sounds) :
    (cell.finishClose index).connection.Sounds := by
  by_cases hstay : cell.connection.pending ≠ 0 ∨ cell.connection.fd = none
  · rw [finishClose_of_pending hstay]
    exact h
  · rw [not_or, not_not] at hstay
    obtain ⟨_, _, _, hc⟩ := finishClose_connection index hstay.1 hstay.2
    rw [hc]
    intro stream hmem
    cases hmem

theorem forceClose_sounds (index : Nat) (cell : Cell) :
    (cell.forceClose index).connection.Sounds := by
  obtain ⟨_, _, _, _, hc⟩ := cancel_connection index cell
  rw [forceClose_eq]
  refine finishClose_sounds ?_
  rw [hc]
  show (cell.abandon index).connection.Sounds
  rw [Sounds, abandon, streams_abort]
  intro stream hmem
  obtain ⟨old, -, rfl⟩ := List.mem_map.mp hmem
  exact ⟨StreamCell.sound_of_closed rfl, Stream.flowing_of_closed rfl⟩

/-- While something is lent, `pending` is not zero and the slot stays. -/
theorem finishClose_honors (h : cell.connection.Honors others) (hb : Booked cell.connection)
    (hlent : ∀ stream ∈ cell.connection.streams, stream.Lent) :
    (cell.finishClose index).connection.Honors others := by
  by_cases hstay : cell.connection.pending ≠ 0 ∨ cell.connection.fd = none
  · rw [finishClose_of_pending hstay]
    exact h
  · rw [not_or, not_not] at hstay
    obtain ⟨-, hbusy, hstreams, -⟩ := hb.empty hstay.1
    refine ⟨fun before hbefore => ?_, fun before hmem => ?_⟩
    · have := (h.1 before hbefore).1
      rw [hbusy] at this
      cases this
    · obtain ⟨stream, hin, hbusy, -⟩ := h.2 before hmem
      rw [(lent_eq_nil hlent hstreams).1 stream hin] at hbusy
      cases hbusy

theorem abandon_honors (index : Nat) (h : cell.connection.Honors others) :
    (cell.abandon index).connection.Honors others := by
  refine ⟨h.1, fun before hmem => ?_⟩
  obtain ⟨stream, hin, hbusy, hview⟩ := h.2 before hmem
  rw [abandon, streams_abort]
  exact ⟨_, List.mem_map.mpr ⟨stream, hin, rfl⟩, hbusy, hview⟩

theorem finishClose_settled (h : cell.Settled config others index false) (hb : Booked cell.connection)
    (hfd : cell.connection.fd.isSome = true) (hphase : cell.connection.phase = .canceling) :
    (cell.finishClose index).Settled config others index true :=
  ⟨finishClose_ledger h.1 hb hfd hphase, finishClose_sounds h.2.1,
    finishClose_honors h.2.2 hb h.1.lent⟩

theorem forceClose_settled (h : cell.Ledger config others index false) (hb : Booked cell.connection)
    (hfd : cell.connection.fd.isSome = true) (hhonors : cell.connection.Honors others) :
    (cell.forceClose index).Settled config others index true := by
  refine ⟨forceClose_ledger h hb hfd, forceClose_sounds index cell, ?_⟩
  obtain ⟨_, _, _, _, hc⟩ := cancel_connection index cell
  rw [forceClose_eq]
  refine finishClose_honors ?_ (cancelSend_booked (cancelReceive_booked (abandon_booked hb))) ?_
  · rw [hc]
    exact abandon_honors index hhonors
  · exact (cancelSend_ledger (cancelReceive_ledger (abandon_ledger h))).lent

/-- A handler that closes the connection keeps the ledger. -/
theorem forceClose_balances (h : cell.Settled config others index false) (hb : Booked cell.connection)
    (hfd : cell.connection.fd.isSome = true) :
    Balances config others index (cell.forceClose index, .done) :=
  forceClose_settled h.1 hb hfd h.2.2

end Cell

end Zhtps.Worker
