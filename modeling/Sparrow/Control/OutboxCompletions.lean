import Sparrow.Control.OutboxLaw

/-!
# Completions that come late

A sender settles a request by the key of its entry and the number of the attempt. A completion may
come when the entry has long been attempted again: `settle` then finds another number and refuses
it. Numbers start again when an operator sends a dead letter again, so that the completion of an
old request can be taken for that of a new one.

## What is proved

* `parseId_keyOf` — the key of an entry names it.
* `late_completion_refused` — a late completion is refused, unless a dead letter was sent again.
* `old_completion_accepted` — if one was, it may be accepted.
-/

namespace Sparrow.Control.Store

open Library Model SortedMap List

variable {spec : OutboxSpec} {hash : Bytes → String} {s : Store} {trace after : List Event} {id : ℤ}
  {e : Entry} {now : ℕ}

/-! ### Keys -/

theorem parseDigits_toDigits (n : ℕ) : parseDigits (Nat.toDigits 10 n) = some n := by
  have hd : (Nat.toDigits 10 n).all Char.isDigit :=
    List.all_eq_true.mpr fun c hc => Nat.isDigit_of_mem_toDigits (by decide) (by decide) hc
  rw [parseDigits, if_neg (by simp [Nat.toDigits_ne_nil, hd])]
  exact congrArg some (Nat.ofDigitChars_toDigits (by decide) (by decide))

theorem parseI64_toString {z : ℤ} (h : parseI64 (toString id).toList = some z) : z = id := by
  obtain ⟨h, -⟩ := Option.filter_eq_some_iff.mp h
  cases id with
  | ofNat n =>
    have ht : (toString (Int.ofNat n)).toList = Nat.toDigits 10 n := by
      rw [show toString (Int.ofNat n) = n.repr from rfl, Nat.repr_eq_ofList_toDigits, String.toList_ofList]
    rw [ht] at h
    have hd : ∀ c ∈ Nat.toDigits 10 n, c.isDigit := fun c hc => Nat.isDigit_of_mem_toDigits (by decide) (by decide) hc
    split at h
    next hp => exact absurd (hd _ (hp ▸ mem_cons_self)) (by decide)
    next hm => exact absurd (hd _ (hm ▸ mem_cons_self)) (by decide)
    next => simpa [parseDigits_toDigits] using h.symm
  | negSucc n =>
    have ht : (toString (Int.negSucc n)).toList = '-' :: Nat.toDigits 10 (n + 1) := by
      rw [show toString (Int.negSucc n) = "-" ++ (n + 1).repr from rfl, Nat.repr_eq_ofList_toDigits,
        String.toList_append, String.toList_ofList, String.toList_ofList]
      rfl
    rw [ht] at h
    simpa [parseDigits_toDigits, Int.negSucc_eq] using h.symm

theorem parseId_keyOf {z : ℤ} (h : parseId s.uuid (s.keyOf id) = .ok z) : z = id := by
  have ht : (s.keyOf id).toList = s.uuid.toList ++ '-' :: (toString id).toList := by
    rw [show s.keyOf id = s.uuid ++ "-" ++ toString id from rfl, String.toList_append,
      String.toList_append, append_assoc]
    rfl
  rw [parseId, ht, if_pos (List.isPrefixOf_iff_prefix.mpr (prefix_append _ _)), drop_left] at h
  split at h
  next z' hz =>
    cases h
    exact parseI64_toString (Option.filter_eq_some_iff.mp hz).1
  next => cases h

/-! ### The numbers of the attempts -/

section

variable (h : Numbered trace s.totals.nextId s.entries)

include h

theorem dead_numbered (hg : s.entries.get? id = some e) {bytes : ℕ}
    {reason : String} : (s.dead spec id bytes now reason).Ensures fun s' =>
      Numbered trace s'.totals.nextId s'.entries := by
  unfold dead
  split
  · split_ifs
    · exact .error
    · refine .ok ?_
      simp only [setEntry, modify_eq_insert hg]
      exact h.put hg rfl
  · refine .ok ?_
    simp only [setEntry, addAudit, count, modify_eq_insert hg]
    exact h.put hg rfl

theorem next_numbered {grant : Result Unit} :
    (s.next spec hash now grant).Ensures fun (request, s') =>
      Numbered (trace ++ request.toList.map fun r => .sent r.id r.attempt) s'.totals.nextId s'.entries := by
  rintro ⟨request, s'⟩ hn
  obtain ⟨rfl, rfl | ⟨id, e, reason, hg, -, hd⟩⟩ | ⟨id, e, hg, -, -, -, -, rfl, rfl⟩ := next_ok hn
  · simpa using h
  · simpa using dead_numbered h hg hd
  · simp only [setEntry, modify_eq_insert hg]
    exact h.send hg rfl

theorem settle_numbered {key : String} {attempt : ℕ} {outcome : Outcome} :
    (s.settle spec key attempt outcome now).Ensures fun s' => Numbered trace s'.totals.nextId s'.entries := by
  refine .bind fun id _ => ?_
  split
  · exact .error
  next e hg =>
    refine .bind fun _ _ => .bind fun created _ => .bind fun _ _ => ?_
    cases outcome with
    | delivered => exact .ok h.remove
    | dead reason => exact dead_numbered h hg
    | retry reason retryAfterMs =>
      split_ifs
      · exact dead_numbered h hg
      · refine .ok ?_
        simp only [setEntry, modify_eq_insert hg]
        exact h.put hg rfl

theorem commandEntry_numbered {request : Command} :
    (s.commandEntry spec request now).Ensures fun (id, s') =>
      Numbered (trace ++ if request.action = "replay" then [.replayed id] else []) s'.totals.nextId s'.entries := by
  unfold commandEntry
  split
  · exact .error
  refine .bind fun id _ => ?_
  split
  · exact .error
  next e hg =>
    refine .bind fun _ _ => ?_
    split_ifs
    · refine .bind fun _ _ => .bind fun _ _ => .ok ?_
      simp only [setEntry, addAudit, count, modify_eq_insert hg]
      exact h.replay hg rfl
    · refine .ok ?_
      rw [append_nil]
      exact h.remove

/-- **Every call** keeps the numbers. -/
theorem step_numbered (call : Call) :
    Numbered (trace ++ (step spec hash s call).1) (step spec hash s call).2.totals.nextId
      (step spec hash s call).2.entries := by
  have hs : Numbered (trace ++ []) s.totals.nextId s.entries := by rwa [append_nil]
  cases call with
  | enqueue body now =>
    simp only [step]
    cases he : s.enqueue spec hash body now with
    | error err => exact hs
    | ok r =>
      have he := after_check (after_check (after_check he))
      cases he
      exact h.accept rfl
  | next now grant =>
    simp only [step]
    cases hn : s.next spec hash now grant with
    | error err => exact hs
    | ok r =>
      obtain ⟨_ | request, s'⟩ := r
      · exact next_numbered h hn
      · exact next_numbered h hn
  | settle key attempt outcome now =>
    simp only [step]
    cases hse : s.settle spec key attempt outcome now with
    | error err => exact hs
    | ok s' =>
      rw [append_nil]
      exact settle_numbered h hse
  | command request now =>
    simp only [step]
    cases hc : s.command spec request now with
    | error err => exact hs
    | ok r =>
      replace hc := after_check (after_check hc)
      split_ifs at hc
      · replace hc := after_check hc
        cases hc
        exact hs
      · obtain ⟨⟨id, s'⟩, hen, hc⟩ := bind_eq_ok.mp hc
        cases hc
        exact commandEntry_numbered h hen
  | rolledBack | reopen => exact hs

end

theorem run_numbered (spec : OutboxSpec) (hash : Bytes → String) (uuid : String) (calls : List Call) :
    Numbered (run spec hash uuid calls).1 (run spec hash uuid calls).2.totals.nextId
      (run spec hash uuid calls).2.entries := by
  have hn : Numbered [] (Store.new uuid).totals.nextId (Store.new uuid).entries :=
    ⟨by simp [Store.new], by simp, by simp [Store.new]⟩
  exact Machine.run_induction (G := fun _ _ => True)
    (I := fun trace (s : Store) => Numbered trace s.totals.nextId s.entries)
    (fun trace s call _ h => step_numbered h call) hn (Machine.along_of_forall (fun _ _ => trivial) _)

/-! ### Completions -/

theorem settle_attempts {attempt : ℕ} {outcome : Outcome} :
    (s.settle spec (s.keyOf id) attempt outcome now).Ensures fun _ =>
    ∃ e, s.entries.get? id = some e ∧ e.attempts = attempt := by
  refine .bind fun z hz => ?_
  obtain rfl := parseId_keyOf hz
  split
  · exact .error
  next e hg =>
    exact .bind fun _ _ => .bind fun _ _ => .bind fun _ ha _ _ => ⟨e, hg, not_ne_iff.mp (refuseIf_eq_ok.mp ha)⟩

theorem attemptsSince_append (h : .replayed id ∉ after) :
    attemptsSince id (trace ++ after) = attemptsSince id trace ++ attemptsOf id after := by
  induction after using List.reverseRecOn with
  | nil => simp [attemptsOf]
  | append_singleton after event ih =>
    rw [mem_append, not_or, mem_singleton] at h
    rw [← append_assoc, attemptsSince, sinceReplay_concat, if_neg (Ne.symm h.2), attemptsOf, filterMap_append,
      ← attemptsOf, ← attemptsSince, ih h.1, append_assoc]
    exact congrArg _ (filterMap_append ..).symm

/-- **A late completion is refused.** In every run, once an entry has been attempted again, the completion of an earlier
attempt is refused and changes nothing, unless the entry has been sent again by an operator since that attempt. -/
theorem late_completion_refused (spec : OutboxSpec) (hash : Bytes → String) (uuid : String) (calls : List Call)
    {before after : List Event} {id : ℤ} {attempt : ℕ}
    (htrace : (run spec hash uuid calls).1 = before ++ .sent id attempt :: after) (hreplay : .replayed id ∉ after)
    {later : ℕ} (hlater : .sent id later ∈ after) (outcome : Outcome) (now : ℕ) :
    let s := (run spec hash uuid calls).2
    (∃ err, s.settle spec (s.keyOf id) attempt outcome now = .error err) ∧
      step spec hash s (.settle (s.keyOf id) attempt outcome now) = ([], s) := by
  have hn := run_numbered spec hash uuid calls
  generalize (run spec hash uuid calls).2 = s at hn ⊢
  have hr : ∃ err, s.settle spec (s.keyOf id) attempt outcome now = .error err := by
    cases hse : s.settle spec (s.keyOf id) attempt outcome now with
    | error err => exact ⟨err, rfl⟩
    | ok s' =>
      obtain ⟨e, hg, ha⟩ := settle_attempts hse
      -- the attempts since the entry was last sent again are in order, and the stored number is that of the last
      have hs := hn.stored id e hg
      rw [htrace, append_cons, attemptsSince_append hreplay, attemptsSince_sent, if_pos rfl] at hs
      have hm : later ∈ attemptsOf id after := List.mem_filterMap.mpr ⟨_, hlater, if_pos rfl⟩
      have hso : (List.range' 1 e.attempts).Pairwise (· < ·) := pairwise_lt_range'
      rw [← hs] at hso
      have hlt : attempt < later := (List.pairwise_append.mp hso).2.2 attempt (by simp) later hm
      have hle : later ∈ List.range' 1 e.attempts := hs ▸ mem_append_right _ hm
      rw [mem_range'_1] at hle
      omega
  refine ⟨hr, ?_⟩
  obtain ⟨err, he⟩ := hr
  simp only [step, he]

/-- A request is attempted, is found a second old, and becomes a dead letter that is sent again. -/
def replaying : List Call :=
  [.enqueue [1] 0, .next 0 (.ok ()), .next 1000 (.ok ()),
    .command { action := "replay", approveUuid := "u", reason := "r", id := some "u-1", replayGeneration := some 0 } 1000,
    .next 1000 (.ok ())]

theorem old_completion_accepted :
    (run secondSpec (fun _ => "") "u" replaying).1 = [.accepted 1] ++ .sent 1 1 :: [.replayed 1, .sent 1 1] ∧
      ((run secondSpec (fun _ => "") "u" replaying).2.settle secondSpec "u-1" 1 .delivered 1000).toOption.map
        (fun s => (s.entries.size, s.totals.delivered)) = some (0, 1) := by
  decide

theorem late_completion_refused_second :
    ∃ err, (run secondSpec (fun _ => "") "u"
      [.enqueue [1] 0, .next 0 (.ok ()), .next 100 (.ok ())]).2.settle secondSpec "u-1" 1
      .delivered 100 = .error err :=
  have htrace : (run secondSpec (fun _ => "") "u" [.enqueue [1] 0, .next 0 (.ok ()), .next 100 (.ok ())]).1 =
      [.accepted 1] ++ .sent 1 1 :: [.sent 1 2] := by decide
  have hl : Event.sent 1 2 ∈ [Event.sent 1 2] := by decide
  (late_completion_refused secondSpec _ "u" _ htrace (by decide) hl .delivered 100).1

end Sparrow.Control.Store
