import YadroSnmp.Snmp.EventLoop

/-! # The agent as a select loop

`main` runs the event loop: input on a descriptor calls `sdevent_snmp_read`
through its source, and before the loop sleeps again `sdevent_snmp_update` asks
net-snmp for its descriptors. The sources come and go one after another, and
what is read is what a loop around `select` would have read.
-/

namespace YadroSnmp.Snmp.EventLoop

instance (r : SelectInfo) (fd : Int) : Decidable (Wanted r fd) := inferInstanceAs (Decidable (_ ∧ _ ∧ _))

def life (source : Source) : List SourceCall := [.create source, .disable source, .erase source]

/-- The calls for a descriptor: those of its past sources, one life after the
other, and the creation of its present source, all of them different. -/
structure Lives (fd : Int) (calls : List SourceCall) (current : Option Source) (past : List Source) : Prop where
  calls : calls = past.flatMap life ++ current.toList.map .create
  distinct : ((past ++ current.toList).map Source.id).Nodup
  own : ∀ source ∈ past ++ current.toList, source.fd = fd

variable {s : EventLoop} {fd : Int} {current next : Option Source} {past : List Source}
  {calls actions : List SourceCall} {first r : SelectInfo}

section Lives

theorem Lives.create_mem (h : Lives fd calls current past) {source : Source} (hs : source ∈ past ++ current.toList) :
    .create source ∈ calls := by
  rw [h.calls, List.mem_append]
  rcases List.mem_append.mp hs with hPast | hCurrent
  · exact .inl (List.mem_flatMap.mpr ⟨source, hPast, List.mem_cons_self⟩)
  · exact .inr (List.mem_map_of_mem hCurrent)

theorem Lives.turn {wanted : Prop} (h : Lives fd (s.history fd) current past)
    (hTurn : Turn s.calls wanted fd current actions next) :
    ∃ past', Lives fd (s.history fd ++ actions) next past' := by
  cases hTurn with
  | keep => exact ⟨past, by rwa [List.append_nil]⟩
  | ignore => exact ⟨past, by rwa [List.append_nil]⟩
  | untrack source =>
    refine ⟨past ++ [source], ?_, by simpa using h.distinct, by simpa using h.own⟩
    rw [h.calls]
    simp [life]
  | track source _ hFd hNew =>
    refine ⟨past, ?_, ?_, ?_⟩
    · rw [h.calls]
      simp
    · have hDistinct := h.distinct
      rw [Option.toList_none, List.append_nil] at hDistinct
      rw [Option.toList_some, List.map_append, List.map_singleton, List.nodup_append]
      refine ⟨hDistinct, List.nodup_singleton _, ?_⟩
      rintro _ hId _ hSource rfl
      obtain ⟨old, hOld, hSame⟩ := List.mem_map.mp hId
      have hCreated := h.create_mem (List.mem_append_left _ hOld)
      exact hNew _ (List.mem_filter.mp hCreated).1 (hSame.trans (List.mem_singleton.mp hSource))
    · intro source' hSource
      rcases List.mem_append.mp hSource with hPast | hLast
      · exact h.own source' (List.mem_append_left _ hPast)
      · rwa [List.mem_singleton.mp hLast]

end Lives

section Loop

theorem run_snoc (results : List SelectInfo) (r : SelectInfo) : run (results ++ [r]) = (run results).update r := by
  rw [run, List.foldl_append]
  rfl

end Loop

end YadroSnmp.Snmp.EventLoop
