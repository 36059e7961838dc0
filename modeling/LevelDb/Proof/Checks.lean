import LevelDb.Db.Conformance
import LevelDb.Proof.Merges
import LevelDb.Proof.Oracle

/-!
# The checks of the runner

An iterator whose operands can be merged is at the place of a cursor over the map it goes through
(`DBIter.Tracks`). So `CheckScan` passes just if that map is the oracle's (`checkScan_iff`), and on the
oracle's map no `CheckWalk` fails, whatever it draws (`checkWalk_ok`).
-/

namespace LevelDb

namespace DBIter.Tracks

variable {K V : Type} [LinearOrder K] [Inhabited K] [Inhabited V] {src : DBIterSource K V}
  {ts : List (RangeTombstone K)} {it : DBIter K V} {c : Option (Cursor (K × V))}

omit [Inhabited K] [Inhabited V] in
theorem valid_eq (h : Tracks src ts it c) : it.valid = c.isSome := by
  obtain ⟨-, d, -, ⟨hvalid, rfl⟩ | ⟨e, rfl, -, hshows⟩⟩ := h
  · exact hvalid
  · exact hshows.valid

variable (h : Merges src ts)
include h

theorem seek (hit : Tracks src ts it c) {target : K} {below : K × V → Bool}
    (hbelow : ∀ p, below p = true ↔ p.1 < target) :
    Tracks src ts (it.seek src target) (Cursor.seek below (src.contents ts)) := by
  obtain rfl : below = fun p => decide (p.1 < target) := by
    funext p
    rw [Bool.eq_iff_iff, hbelow, decide_eq_true_iff]
  have hstep := hit.step h (.seek target)
  cases hstep with
  | some hrel => exact hrel

theorem seekToFirst (hit : Tracks src ts it c) :
    Tracks src ts (it.seekToFirst src) (Cursor.first (src.contents ts)) := by
  have hstep := hit.step h .seekToFirst
  cases hstep with
  | some hrel => exact hrel

theorem seekToLast (hit : Tracks src ts it c) :
    Tracks src ts (it.seekToLast src) (Cursor.last (src.contents ts)) := by
  have hstep := hit.step h .seekToLast
  cases hstep with
  | some hrel => exact hrel

theorem next {e : Cursor (K × V)} (hit : Tracks src ts it (some e)) :
    Tracks src ts (it.next src) e.next := by
  have hstep := hit.step h .next
  have hvalid : it.valid = true := hit.valid_eq
  simp only [DBIter.system, hvalid, if_true] at hstep
  cases hstep with
  | some hrel => exact hrel

theorem prev {e : Cursor (K × V)} (hit : Tracks src ts it (some e)) :
    Tracks src ts (it.prev src) e.prev := by
  have hstep := hit.step h .prev
  have hvalid : it.valid = true := hit.valid_eq
  simp only [DBIter.system, hvalid, if_true] at hstep
  cases hstep with
  | some hrel => exact hrel

end DBIter.Tracks

namespace Conf

open DBIter Numerals

variable {src : DBIterSource Text Text} {ts : List (RangeTombstone Text)} {it it' : DBIter Text Text}
  {model : ConfMap}

theorem sameEntry_iff {c : Cursor (Text × Text)} (h : Tracks src ts it (some c)) (e : Nat × Text) :
    sameEntry it e = true ↔ c.here = keyed e := by
  unfold sameEntry
  rw [h.shown_eq, decide_eq_true_iff, Option.map_some, Option.some.injEq]
  exact Iff.rfl

/-- **A direction of the scan** passes just if what the iterator has before it is what the oracle has.
`place` is where it is between the two. -/
theorem scanLoop_spec {move : DBIter Text Text → DBIter Text Text}
    (place : List (Text × Text) → List (Text × Text) → Option (Cursor (Text × Text)))
    (hnil : ∀ passed, place passed [] = none)
    (hcons : ∀ passed p l, ∃ c, place passed (p :: l) = some c ∧ c.here = p ∧
      ∀ it, Tracks src ts it (some c) → Tracks src ts (move it) (place (p :: passed) l))
    {passed l : List (Text × Text)} (hit : Tracks src ts it (place passed l))
    (es : List (Nat × Text)) :
    ((scanLoop move it es).isSome = true ↔ l = es.map keyed) ∧
      ∀ it', scanLoop move it es = some it' → Tracks src ts it' none := by
  induction es generalizing it passed l with
  | nil =>
    cases l with
    | nil =>
      rw [hnil] at hit
      have hvalid : it.valid = false := hit.valid_eq
      have hend : scanLoop move it [] = some it := if_pos ⟨hvalid, hit.1⟩
      exact ⟨by simp [hend], fun it' h => Option.some.inj (hend.symm.trans h) ▸ hit⟩
    | cons p l =>
      obtain ⟨c, hc, -, -⟩ := hcons passed p l
      rw [hc] at hit
      have hvalid : it.valid = true := hit.valid_eq
      have hend : scanLoop move it [] = none := if_neg (by simp [hvalid])
      exact ⟨by simp [hend], fun it' h => by simp [hend] at h⟩
  | cons e es ih =>
    unfold scanLoop
    cases l with
    | nil =>
      rw [hnil] at hit
      have hshown : it.shown = none := hit.shown_eq
      have hdiffers : sameEntry it e = false := by simp [sameEntry, hshown]
      simp [hdiffers]
    | cons p l =>
      obtain ⟨c, hc, hhere, hmove⟩ := hcons passed p l
      rw [hc] at hit
      have hsame := sameEntry_iff hit e
      rw [hhere] at hsame
      rw [List.map_cons, List.cons.injEq]
      split
      · rename_i heq
        obtain ⟨hiff, hend⟩ := ih (hmove it hit)
        have hp := hsame.1 heq
        exact ⟨by simp [hiff, hp], hend⟩
      · rename_i hne
        have hp : ¬p = keyed e := fun hp => hne (hsame.2 hp)
        exact ⟨by simp [hp], by simp⟩

/-- **`CheckScan` is exact**: it passes just if the iterator goes through the oracle's map. -/
theorem checkScan_iff (h : Merges src ts) :
    checkScan src model = true ↔ src.contents ts = model.toList.map keyed := by
  have hstart := (tracks_new src ts).seekToFirst h
  obtain ⟨hforward, hend⟩ := scanLoop_spec Cursor.front (fun _ => rfl)
    (fun passed p l => ⟨⟨passed, p, l⟩, rfl, rfl, fun it hit => hit.next h⟩) hstart model.toList
  unfold checkScan
  cases hscan : scanLoop (·.next src) (DBIter.new.seekToFirst src) model.toList with
  | none =>
    rw [hscan] at hforward
    exact iff_of_false (by simp) fun heq => by simpa using hforward.2 heq
  | some it =>
    rw [hscan] at hforward
    have heq := hforward.1 rfl
    have hlast := (hend it hscan).seekToLast h
    obtain ⟨hback, -⟩ := scanLoop_spec Cursor.back (fun _ => rfl)
      (fun passed p l => ⟨⟨l, p, passed⟩, rfl, rfl, fun it hit => hit.prev h⟩) hlast
      model.toList.reverse
    refine iff_of_true ?_ heq
    rw [Option.bind_some]
    exact hback.2 (by rw [heq, List.map_reverse])

/-- **The walk goes well** from where both are at the same place. -/
theorem walkLoop_ok (h : Merges src ts) (steps : Nat) {e : Option (Cursor (Nat × Text))}
    (hit : Tracks src ts it (e.map (Cursor.map keyed))) (rng : ConfRng) :
    ∃ it', (walkLoop src steps it e rng).1 = some it' ∧ it'.status = .ok := by
  induction steps generalizing it e rng with
  | zero =>
    cases e with
    | none =>
      have hvalid : it.valid = false := hit.valid_eq
      exact ⟨it, by rw [walkLoop_none, hvalid]; rfl, hit.1⟩
    | some e =>
      have hsame : sameEntry it e.here = true := (sameEntry_iff hit e.here).2 rfl
      exact ⟨it, if_pos hsame, hit.1⟩
  | succ steps ih =>
    cases e with
    | none =>
      have hvalid : it.valid = false := hit.valid_eq
      exact ⟨it, by rw [walkLoop_none, hvalid]; rfl, hit.1⟩
    | some e =>
      have hsame : sameEntry it e.here = true := (sameEntry_iff hit e.here).2 rfl
      have hnext := hit.next h
      have hprev := hit.prev h
      rw [Cursor.next_map] at hnext
      rw [Cursor.prev_map] at hprev
      rw [walkLoop_succ src steps it e rng hsame]
      split
      · exact ih hnext _
      · split
        · rename_i hempty
          have hnone : e.prev = none := by
            unfold Cursor.prev
            rw [List.isEmpty_iff.1 hempty]
            rfl
          rw [hnone] at hprev
          have hvalid : (it.prev src).valid = false := hprev.valid_eq
          exact ⟨it.prev src, by simp [hvalid], hprev.1⟩
        · exact ih hprev _

/-- **No `CheckWalk` fails** on the map of the oracle. -/
theorem checkWalk_ok (h : Merges src ts) (hcontents : src.contents ts = model.toList.map keyed)
    (hlt : ∀ e ∈ model.toList, e.1 < 10 ^ 8) {start : Nat} (hstart : start < 10 ^ 8) (steps : Nat)
    (rng : ConfRng) : (checkWalk src model start steps rng).1 = true := by
  have hseek : Tracks src ts (DBIter.new.seek src (confKey start))
      (Cursor.seek (fun p => decide (p.1 < confKey start)) (src.contents ts)) :=
    (tracks_new src ts).seek h fun p => decide_eq_true_iff
  have hbelow : ∀ e ∈ model.toList,
      decide ((keyed e).1 < confKey start) = decide (e.1 < start) :=
    fun e he => decide_eq_decide.2 (confKey_lt (hlt e he) hstart)
  rw [hcontents, Cursor.seek_map hbelow] at hseek
  obtain ⟨it', hwalk, hok⟩ := walkLoop_ok h steps hseek rng
  unfold checkWalk
  dsimp only
  rw [hwalk, Option.any_some, hok]
  rfl

end Conf
end LevelDb
