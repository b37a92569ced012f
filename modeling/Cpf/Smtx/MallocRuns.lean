import Cpf.Smtx.MallocReplay

/-!
# Runs of versioned allocation

`Ok` relates a state to the calls that were made so far. Every step whose call needs at most one more chunk
keeps it, and with it no assertion of `update_ver_malloc` fails.
-/

namespace Cpf.Smtx.VerMalloc

/-- An entry for a worker follows its calls, where `rs` are the records that were processed. -/
def Tracks (source : ℕ) (calls : List ℕ) (rs : List VerMallocInstance) (c : VerMallocChunk) : Prop :=
  ∃ done, done <+: calls ∧ rs = recordsFrom (verMallocInit source) done ∧ c = chunkAfter source done

theorem Tracks.mono {source : ℕ} {calls calls' : List ℕ} {rs : List VerMallocInstance} {c : VerMallocChunk}
    (h : Tracks source calls rs c) (hcalls : calls <+: calls') : Tracks source calls' rs c := by
  obtain ⟨done, hdone, hrs, hc⟩ := h
  exact ⟨done, hdone.trans hcalls, hrs, hc⟩

theorem tracks_init {source : ℕ} {calls : List ℕ} : Tracks source calls [] (verMallocInit source) :=
  ⟨[], List.nil_prefix, rfl, rfl⟩

/-- The next records of the worker are processed without a failed assertion. -/
theorem Tracks.replay {source : ℕ} {calls : List ℕ} {rs new : List VerMallocInstance} {p : Process}
    (h : Tracks source calls rs (p.chunks source)) (hfits : Fits (verMallocInit source) calls)
    (hnew : rs ++ new <+: recordsFrom (verMallocInit source) calls) (hcovers : ∀ u, p.Covers u) :
    ∃ q, p.replay source new = .ok q ∧ Tracks source calls (rs ++ new) (q.chunks source) ∧
      (∀ u, u ≠ source → q.chunks u = p.chunks u) ∧ ∀ u, q.Covers u := by
  obtain ⟨done, hdone, rfl, hc⟩ := h
  obtain ⟨more, hmore, heq⟩ := exists_of_prefix_recordsFrom hnew
  have hlen : done.length ≤ more.length := by
    have := congrArg List.length heq
    simp only [List.length_append, length_recordsFrom] at this
    omega
  obtain ⟨rest, rfl⟩ := List.prefix_of_prefix_length_le hdone hmore hlen
  rw [recordsFrom_append, List.append_cancel_left_eq] at heq
  obtain ⟨after, rfl⟩ := hmore
  have hfits' := (fits_append.1 (fits_append.1 hfits).1)
  have hchunk : (p.chunks source) = done.foldl grow (verMallocInit source) := hc
  have hchunkOk : ChunkOk (p.chunks source) := by
    rw [hchunk]
    exact (chunkOk_init source).foldl hfits'.1
  have hfitsRest : Fits (p.chunks source) rest := by
    rw [hchunk]
    exact hfits'.2
  obtain ⟨q, hq, hchunks, hcov⟩ := Process.replay_recordsFrom hchunkOk hfitsRest hcovers
  refine ⟨q, ?_, ⟨done ++ rest, List.prefix_append _ _, ?_, ?_⟩, fun u hu => ?_, hcov⟩
  · rw [heq, ← hq, hchunk]
  · rw [heq, recordsFrom_append]
  · rw [hchunks, Function.update_self, hchunk, chunkAfter, List.foldl_append]
  · rw [hchunks, Function.update_of_ne hu]

/-- The entries with the least tag come first. -/
theorem filter_zero_isPrefix {α : Type} {l : List (ℕ × α)} (h : l.Pairwise fun x y => x.1 ≤ y.1) :
    (l.filter fun x => x.1 = 0) <+: l := by
  induction l with
  | nil => exact List.nil_prefix
  | cons x l ih =>
    obtain ⟨hx, hl⟩ := List.pairwise_cons.1 h
    by_cases hzero : x.1 = 0
    · rw [List.filter_cons_of_pos (by simpa using hzero)]
      exact (List.prefix_cons_inj x).2 (ih hl)
    · rw [List.filter_eq_nil_iff.2]
      · exact List.nil_prefix
      · intro y hy
        rcases List.mem_cons.1 hy with rfl | hy
        · simpa using hzero
        · have := hx y hy
          simp only [decide_eq_true_eq]
          omega

/-- The records of a worker among those that the commit unit has sent back. -/
def reportsFor (source : ℕ) (reports : List (ℕ × VerMallocInstance)) : List VerMallocInstance :=
  (reports.filter fun x => x.1 = source).map Prod.snd

theorem reportsFor_append {source : ℕ} {l m : List (ℕ × VerMallocInstance)} :
    reportsFor source (l ++ m) = reportsFor source l ++ reportsFor source m := by
  rw [reportsFor, List.filter_append, List.map_append, reportsFor, reportsFor]

theorem reportsFor_tagged {source w : ℕ} {rs : List VerMallocInstance} :
    reportsFor source (rs.map fun r => (w, r)) = if w = source then rs else [] := by
  by_cases hw : w = source
  · simp [reportsFor, hw, List.filter_map, Function.comp_def]
  · simp [reportsFor, hw, List.filter_map, Function.comp_def]

namespace State

def sentRecords (s : State) (wid : ℕ) : List VerMallocInstance := (s.sent wid).flatMap fun x => recordsOf x.2

structure Ok (pl : Pipeline) (calls : ℕ → List ℕ) (s : State) : Prop where
  fits : ∀ w, Fits (verMallocInit w) (calls w)
  own : ∀ w, (s.processes (.worker w)).chunks w = chunkAfter w (calls w)
  covers : ∀ i u, (s.processes i).Covers u
  buffer : ∀ w, (s.buffers w).Ok
  records : ∀ w, s.sentRecords w ++ (s.buffers w).records = recordsFrom (verMallocInit w) (calls w)
  sorted : ∀ w, (s.sent w).Pairwise fun x y => x.1 ≤ y.1
  tag_le : ∀ w, ∀ x ∈ s.sent w, x.1 ≤ pl.iterationOf w (s.ended w)
  taken_le : ∀ i u, s.taken i u ≤ (s.sent u).length
  behind : ∀ i u, pl.Behind u i → Tracks u (calls u) (s.processed i u) ((s.processes i).chunks u)
  reportsTaken_le : ∀ w, s.reportsTaken w ≤ s.reported.length
  reported : ∀ u, reportsFor u s.reported =
    (((s.sent u).take (s.taken .commit u)).filter fun x => x.1 = 0).flatMap fun x => recordsOf x.2
  inFront : ∀ w u, pl.InFront w u →
    Tracks u (calls u) (reportsFor u (s.reported.take (s.reportsTaken w)))
      ((s.processes (.worker w)).chunks u)

namespace Ok

variable {pl : Pipeline} {calls calls' : ℕ → List ℕ} {s s' : State}

theorem init : Ok pl (fun _ => []) State.init where
  fits _ := trivial
  own _ := rfl
  covers i u a _ hbegin hlt := absurd (hbegin.trans_lt hlt) (Nat.lt_irrefl _)
  buffer _ := VerMallocBuffer.ok_cleared
  records _ := rfl
  sorted _ := List.Pairwise.nil
  tag_le _ _ hx := by cases hx
  taken_le _ _ := Nat.le_refl _
  behind _ _ _ := tracks_init
  reportsTaken_le _ := Nat.le_refl _
  reported _ := rfl
  inFront _ _ _ := tracks_init

theorem chunkOk (h : Ok pl calls s) (w : ℕ) : ChunkOk ((s.processes (.worker w)).chunks w) := by
  rw [h.own w]
  exact (chunkOk_init w).foldl (h.fits w)

theorem next_packet (h : Ok pl calls s) {i : ProcessId} {u : ℕ} {x : ℕ × Page}
    (hx : (s.sent u)[s.taken i u]? = some x) :
    s.processed i u ++ recordsOf x.2 <+: recordsFrom (verMallocInit u) (calls u) := by
  have htake : s.processed i u ++ recordsOf x.2 =
      ((s.sent u).take (s.taken i u + 1)).flatMap fun x => recordsOf x.2 := by
    rw [List.take_add_one, hx, List.flatMap_append, Option.toList_some, List.flatMap_singleton, State.processed]
  rw [htake, ← h.records u]
  exact ((List.take_prefix _ _).flatMap _).trans (List.prefix_append _ _)

theorem reports_prefix (h : Ok pl calls s) (u : ℕ) :
    reportsFor u s.reported <+: recordsFrom (verMallocInit u) (calls u) := by
  rw [h.reported u, ← h.records u]
  have hsorted : ((s.sent u).take (s.taken .commit u)).Pairwise fun x y => x.1 ≤ y.1 :=
    (h.sorted u).sublist (List.take_sublist _ _)
  exact (((filter_zero_isPrefix hsorted).trans (List.take_prefix _ _)).flatMap _).trans (List.prefix_append _ _)

theorem sends (h : Ok pl calls s) (w : ℕ) (pages : List Page) (hcalls : ∀ u, calls u <+: calls' u)
    (hfits : ∀ u, Fits (verMallocInit u) (calls' u))
    (hown : ∀ u, (s'.processes (.worker u)).chunks u = chunkAfter u (calls' u))
    (hother : ∀ i u, i ≠ .worker u → (s'.processes i).chunks u = (s.processes i).chunks u)
    (hcovers : ∀ i u, (s'.processes i).Covers u) (hbuffer : ∀ u, (s'.buffers u).Ok)
    (hsent : s'.sent = Function.update s.sent w
      (s.sent w ++ pages.map fun page => (pl.iterationOf w (s.ended w), page)))
    (hrecords : ∀ u, s'.sentRecords u ++ (s'.buffers u).records = recordsFrom (verMallocInit u) (calls' u))
    (hended : ∀ u, s.ended u ≤ s'.ended u) (htaken : s'.taken = s.taken) (hreported : s'.reported = s.reported)
    (hreportsTaken : s'.reportsTaken = s.reportsTaken) : Ok pl calls' s' := by
  have hextends : ∀ u, s.sent u <+: s'.sent u := by
    intro u
    by_cases hu : u = w
    · rw [hsent, hu, Function.update_self]
      exact List.prefix_append _ _
    · rw [hsent, Function.update_of_ne hu]
  have htake : ∀ i u, (s'.sent u).take (s.taken i u) = (s.sent u).take (s.taken i u) := by
    intro i u
    obtain ⟨more, hmore⟩ := hextends u
    rw [← hmore, List.take_append_of_le_length (h.taken_le i u)]
  have hiter : ∀ u, pl.iterationOf u (s.ended u) ≤ pl.iterationOf u (s'.ended u) := fun u =>
    Nat.add_le_add_left (Nat.mul_le_mul_right _ (hended u)) _
  have htag : ∀ u, ∀ x ∈ s'.sent u, x.1 ≤ pl.iterationOf u (s.ended u) := by
    intro u x hx
    by_cases hu : u = w
    · subst hu
      rw [hsent, Function.update_self, List.mem_append] at hx
      rcases hx with hx | hx
      · exact h.tag_le u x hx
      · obtain ⟨page, _, rfl⟩ := List.mem_map.1 hx
        exact Nat.le_refl _
    · rw [hsent, Function.update_of_ne hu] at hx
      exact h.tag_le u x hx
  refine ⟨hfits, hown, hcovers, hbuffer, hrecords, fun u => ?_, fun u x hx => (htag u x hx).trans (hiter u),
    fun i u => ?_, fun i u hi => ?_, fun u => ?_, fun u => ?_, fun v u hv => ?_⟩
  · by_cases hu : u = w
    · subst hu
      rw [hsent, Function.update_self, List.pairwise_append]
      refine ⟨h.sorted u, ?_, fun x hx y hy => ?_⟩
      · exact List.pairwise_map.2 (List.pairwise_of_forall fun _ _ => Nat.le_refl _)
      · obtain ⟨page, _, rfl⟩ := List.mem_map.1 hy
        exact h.tag_le u x hx
    · rw [hsent, Function.update_of_ne hu]
      exact h.sorted u
  · rw [htaken]
    exact (h.taken_le i u).trans (hextends u).length_le
  · have hne : i ≠ .worker u := by
      rintro rfl
      exact Nat.lt_irrefl _ hi
    rw [hother i u hne, State.processed, htaken, htake i u]
    exact (h.behind i u hi).mono (hcalls u)
  · rw [hreportsTaken, hreported]
    exact h.reportsTaken_le u
  · rw [hreported, htaken, htake .commit u]
    exact h.reported u
  · have hne : ProcessId.worker v ≠ .worker u := fun he => hv.2 (ProcessId.worker.inj he).symm
    rw [hother _ u hne, hreported, hreportsTaken]
    exact (h.inFront v u hv).mono (hcalls u)

theorem endIter (h : Ok pl calls s) (w : ℕ) :
    ∃ s', s.step pl (.endIter w) = .ok s' ∧ Ok pl calls s' := by
  refine ⟨_, rfl, h.sends w (broadcastMallocChunk (s.buffers w).elem ((s.buffers w).index * instanceSize))
    (fun u => List.prefix_refl _) h.fits h.own (fun _ _ _ => rfl) h.covers (fun u => ?_) rfl (fun u => ?_)
    (fun u => ?_) rfl rfl rfl⟩
  · by_cases hu : u = w
    · simpa [hu] using VerMallocBuffer.ok_cleared
    · simpa [hu, State.send] using h.buffer u
  · rw [← h.records u]
    by_cases hu : u = w
    · subst hu
      have hcleared : VerMallocBuffer.cleared.records = [] := rfl
      simp [State.sentRecords, State.send, List.flatMap_map, ← (h.buffer u).flatMap_broadcast, hcleared,
        List.flatMap_append]
    · simp [State.sentRecords, State.send, hu]
  · by_cases hu : u = w
    · simp [hu]
    · simp [hu]

theorem verMalloc (h : Ok pl calls s) {w size : ℕ} (hone : OneChunk ((s.processes (.worker w)).chunks w) size) :
    s.step pl (.verMalloc w size) = .error .outOfRange ∨ ∃ s', s.step pl (.verMalloc w size) = .ok s' ∧
      Ok pl (Function.update calls w (calls w ++ [size])) s' := by
  have hchunk := h.own w
  have hok := h.chunkOk w
  by_cases hbound : ((s.processes (.worker w)).chunks w).next + roundUp size alignment <
      ((s.processes (.worker w)).chunks w).bound
  swap
  · left
    simp only [State.step, Process.verMalloc_eq hone, if_neg hbound]
    rfl
  right
  refine ⟨_, by simp only [State.step, Process.verMalloc_eq hone, if_pos hbound]; rfl, ?_⟩
  have hptr : ((s.processes (.worker w)).chunks w).next ≠ 0 :=
    Nat.pos_iff_ne_zero.1 (hok.begin_pos.trans_le hok.begin_le)
  have hput := @VerMallocBuffer.Ok.put_records _ (h.buffer w) _ _ (-1) hptr (hok.roundUp_lt hone)
  have hlast : ∀ u, u ≠ w → Function.update calls w (calls w ++ [size]) u = calls u := fun u hu =>
    Function.update_of_ne hu _ _
  refine h.sends w (s.buffers w).flush (fun u => ?_) (fun u => ?_) (fun u => ?_) (fun i u hi => ?_)
    (fun i u => ?_) (fun u => ?_) rfl (fun u => ?_) (fun u => Nat.le_refl _) rfl rfl rfl
  · by_cases hu : u = w
    · subst hu
      rw [Function.update_self]
      exact List.prefix_append _ _
    · rw [hlast u hu]
  · by_cases hu : u = w
    · subst hu
      rw [Function.update_self, fits_append]
      refine ⟨h.fits u, ⟨?_, ?_⟩, trivial⟩
      · rwa [hchunk] at hone
      · rwa [hchunk] at hbound
    · rw [hlast u hu]
      exact h.fits u
  · by_cases hu : u = w
    · subst hu
      simp [State.bufferVerMalloc, State.send, State.setProcess, Process.grown_chunks, chunkAfter, hchunk]
    · rw [hlast u hu]
      simpa [State.bufferVerMalloc, State.send, State.setProcess, hu] using h.own u
  · by_cases hiw : i = .worker w
    · subst hiw
      have hu : u ≠ w := fun hu => hi (by rw [hu])
      simp [State.bufferVerMalloc, State.send, State.setProcess, Process.grown_chunks, hu]
    · simp [State.bufferVerMalloc, State.send, State.setProcess, hiw]
  · by_cases hiw : i = .worker w
    · subst hiw
      simpa [State.bufferVerMalloc, State.send, State.setProcess] using (h.covers _ u).grown hok
    · simpa [State.bufferVerMalloc, State.send, State.setProcess, hiw] using h.covers i u
  · by_cases hu : u = w
    · simpa [State.bufferVerMalloc, State.setProcess, hu] using hput.1
    · simpa [State.bufferVerMalloc, State.send, State.setProcess, hu] using h.buffer u
  · by_cases hu : u = w
    · subst hu
      have hsent := hput.2
      have hrecords := h.records u
      rw [Function.update_self, recordsFrom_append, ← hrecords, List.append_assoc, recordsFrom, recordsFrom,
        ← chunkAfter, ← hchunk, ← hsent]
      simp [State.sentRecords, State.bufferVerMalloc, State.send, State.setProcess, List.flatMap_map]
    · rw [hlast u hu, ← h.records u]
      simp [State.sentRecords, State.bufferVerMalloc, State.send, State.setProcess, hu]

theorem processAlloc (h : Ok pl calls s) {i : ProcessId} {w : ℕ} :
    s.step pl (.processAlloc i w) = .error .notBehind ∨ s.step pl (.processAlloc i w) = .error .queueEmpty ∨
      ∃ s', s.step pl (.processAlloc i w) = .ok s' ∧ Ok pl calls s' := by
  by_cases hi : pl.Behind w i
  swap
  · left
    simp only [State.step, if_neg hi]
  right
  cases hx : (s.sent w)[s.taken i w]? with
  | none =>
    left
    simp only [State.step, if_pos hi, hx]
  | some x =>
    right
    obtain ⟨q, hq, htracks, hother, hcovers⟩ :=
      (h.behind i w hi).replay (h.fits w) (h.next_packet hx) (h.covers i)
    refine ⟨_, by simp only [State.step, if_pos hi, hx, Process.processAlloc_page, hq]; rfl, ?_⟩
    have hchunks : ∀ j u, j ≠ i ∨ u ≠ w →
        ((s.setProcess i q).processes j).chunks u = (s.processes j).chunks u := by
      intro j u hju
      by_cases hj : j = i
      · subst hj
        simpa [State.setProcess] using hother u (hju.resolve_left (fun hne => hne rfl))
      · simp [State.setProcess, hj]
    have hbehind : ∀ v, i = .worker v → pl.stage w < pl.stage v := by
      rintro v rfl
      exact hi
    have htaken : ∀ j u, j ≠ i ∨ u ≠ w →
        Function.update s.taken i (Function.update (s.taken i) w (s.taken i w + 1)) j u = s.taken j u := by
      intro j u hju
      by_cases hj : j = i
      · subst hj
        simp [hju.resolve_left (fun hne => hne rfl)]
      · simp [hj]
    have hlt : s.taken i w < (s.sent w).length := (List.getElem?_eq_some_iff.1 hx).1
    have hreported : s.reported <+: if i = .commit ∧ x.1 = 0 then
        s.reported ++ (recordsOf x.2).map fun r => (w, r) else s.reported := by
      split_ifs
      · exact List.prefix_append _ _
      · exact List.prefix_refl _
    refine ⟨h.fits, fun u => ?_, fun j u => ?_, h.buffer, h.records, h.sorted, h.tag_le, fun j u => ?_,
      fun j u hj => ?_, fun v => ?_, fun u => ?_, fun v u hv => ?_⟩
    · refine (hchunks _ u ?_).trans (h.own u)
      by_contra hne
      simp only [ne_eq, not_or, not_not] at hne
      obtain ⟨hv, rfl⟩ := hne
      exact Nat.lt_irrefl _ (hbehind u hv.symm)
    · by_cases hj : j = i
      · subst hj
        simpa [State.setProcess] using hcovers u
      · simpa [State.setProcess, hj] using h.covers j u
    · by_cases hju : j ≠ i ∨ u ≠ w
      · exact (htaken j u hju).trans_le (h.taken_le j u)
      · simp only [ne_eq, not_or, not_not] at hju
        obtain ⟨rfl, rfl⟩ := hju
        simpa [State.setProcess] using hlt
    · by_cases hju : j ≠ i ∨ u ≠ w
      · simp only [State.processed, htaken j u hju, hchunks j u hju]
        exact h.behind j u hj
      · simp only [ne_eq, not_or, not_not] at hju
        obtain ⟨rfl, rfl⟩ := hju
        simpa [State.setProcess, State.processed, List.take_add_one, hx] using htracks
    · exact (h.reportsTaken_le v).trans hreported.length_le
    · have hold := h.reported u
      by_cases hjoin : i = .commit ∧ x.1 = 0
      · obtain ⟨rfl, htag⟩ := hjoin
        by_cases hu : u = w
        · subst hu
          simp [State.setProcess, htag, reportsFor_append, reportsFor_tagged, hold, List.take_add_one, hx]
        · simp [State.setProcess, htag, reportsFor_append, reportsFor_tagged, hold, hu, Ne.symm hu]
      · by_cases hcommit : u = w ∧ i = .commit
        · obtain ⟨rfl, rfl⟩ := hcommit
          have htag : x.1 ≠ 0 := fun htag => hjoin ⟨rfl, htag⟩
          simp [State.setProcess, htag, hold, List.take_add_one, hx]
        · simp only [if_neg hjoin]
          rw [htaken .commit u (by tauto)]
          exact hold
    · have hne : ProcessId.worker v ≠ i ∨ u ≠ w := by
        by_contra hboth
        simp only [ne_eq, not_or, not_not] at hboth
        obtain ⟨rfl, rfl⟩ := hboth
        exact Nat.not_lt.2 hv.1 hi
      obtain ⟨more, hmore⟩ := hreported
      simp only [← hmore]
      rw [hchunks _ u hne, show (s.setProcess i q).reportsTaken = s.reportsTaken from rfl,
        List.take_append_of_le_length (h.reportsTaken_le v)]
      exact h.inFront v u hv

theorem processReport (h : Ok pl calls s) {w : ℕ} : s.step pl (.processReport w) = .error .queueEmpty ∨
    ∃ s', s.step pl (.processReport w) = .ok s' ∧ Ok pl calls s' := by
  cases hx : s.reported[s.reportsTaken w]? with
  | none =>
    left
    simp only [State.step, hx]
  | some x =>
    right
    obtain ⟨source, r⟩ := x
    have hlt : s.reportsTaken w < s.reported.length := (List.getElem?_eq_some_iff.1 hx).1
    have htake : s.reported.take (s.reportsTaken w + 1) = s.reported.take (s.reportsTaken w) ++
        [(source, r)] := by
      rw [List.take_add_one, hx, Option.toList_some]
    have hreports : ∀ u, reportsFor u (s.reported.take (s.reportsTaken w + 1)) =
        reportsFor u (s.reported.take (s.reportsTaken w)) ++ if source = u then [r] else [] := fun u => by
      rw [htake, reportsFor_append, ← reportsFor_tagged, List.map_singleton]
    -- the process is the old one but for its entry for `source`, if it stands in front of it
    obtain ⟨q, hq, hown, hcovers, hother, htracks⟩ : ∃ q,
        (s.processes (.worker w)).processReport pl w source r = .ok q ∧
        q.chunks w = (s.processes (.worker w)).chunks w ∧ (∀ u, q.Covers u) ∧
        (∀ u, ¬ pl.InFront w u → q.chunks u = (s.processes (.worker w)).chunks u) ∧
        ∀ u, pl.InFront w u →
          Tracks u (calls u) (reportsFor u (s.reported.take (s.reportsTaken w + 1))) (q.chunks u) := by
      by_cases hfront : pl.InFront w source
      · have hextends : reportsFor source (s.reported.take (s.reportsTaken w)) ++ [r] <+:
            recordsFrom (verMallocInit source) (calls source) := by
          have hstep := hreports source
          rw [if_pos rfl] at hstep
          rw [← hstep]
          refine List.IsPrefix.trans ?_ (h.reports_prefix source)
          exact ((List.take_prefix _ _).filter _).map _
        obtain ⟨q, hq, htracks, hother, hcovers⟩ :=
          (h.inFront w source hfront).replay (h.fits source) hextends (h.covers _)
        have hheap : r.heap = -1 :=
          (mem_recordsFrom (hextends.subset (List.mem_append_right _ (List.mem_singleton.2 rfl)))).1
        refine ⟨q, ?_, hother w hfront.2.symm, hcovers, fun u hu => hother u ?_, fun u hu => ?_⟩
        · rw [Process.processReport, if_pos ⟨hheap, hfront⟩, ← hq]
          simp [Process.replay, hheap]
        · rintro rfl
          exact hu hfront
        · rw [hreports u]
          by_cases hsource : source = u
          · subst hsource
            rw [if_pos rfl]
            exact htracks
          · rw [if_neg hsource, List.append_nil, hother u (Ne.symm hsource)]
            exact h.inFront w u hu
      · refine ⟨_, if_neg fun hboth => hfront hboth.2, rfl, h.covers _, fun _ _ => rfl, fun u hu => ?_⟩
        have hsource : source ≠ u := by
          rintro rfl
          exact hfront hu
        rw [hreports u, if_neg hsource, List.append_nil]
        exact h.inFront w u hu
    refine ⟨_, by simp only [State.step, hx, hq]; rfl, ?_⟩
    have hprocess : ∀ v, v ≠ w → (s.setProcess (.worker w) q).processes (.worker v) = s.processes
        (.worker v) := by
      intro v hv
      simp [State.setProcess, hv]
    refine ⟨h.fits, fun u => ?_, fun j u => ?_, h.buffer, h.records, h.sorted, h.tag_le, h.taken_le,
      fun j u hj => ?_, fun v => ?_, h.reported, fun v u hv => ?_⟩
    · by_cases hu : u = w
      · subst hu
        simpa [State.setProcess, hown] using h.own u
      · simpa [hprocess u hu] using h.own u
    · by_cases hj : j = .worker w
      · subst hj
        simpa [State.setProcess] using hcovers u
      · simpa [State.setProcess, hj] using h.covers j u
    · by_cases hjw : j = .worker w
      · subst hjw
        have hnot : ¬ pl.InFront w u := fun hfront => Nat.not_lt.2 hfront.1 hj
        simpa [State.setProcess, State.processed, hother u hnot] using h.behind _ u hj
      · simpa [State.setProcess, State.processed, hjw] using h.behind j u hj
    · by_cases hv : v = w
      · simpa [hv, State.setProcess] using hlt
      · simpa [hv, State.setProcess] using h.reportsTaken_le v
    · by_cases hvw : v = w
      · subst hvw
        simpa [State.setProcess] using htracks u hv
      · simpa [State.setProcess, hvw] using h.inFront v u hv

end Ok

end State

/-! ### Runs -/

def callsAfter (calls : ℕ → List ℕ) : Event → ℕ → List ℕ
  | .verMalloc w size => Function.update calls w (calls w ++ [size])
  | _ => calls

theorem callsOf_concat (events : List Event) (e : Event) :
    callsOf (events ++ [e]) = callsAfter (callsOf events) e := by
  funext u
  rw [callsOf, List.filterMap_append]
  cases e with
  | verMalloc w size =>
    by_cases hu : u = w
    · simp [callsAfter, callsOf, hu]
    · simp [callsAfter, callsOf, hu, Ne.symm hu]
  | endIter w => simp [callsAfter, callsOf]
  | processAlloc i w => simp [callsAfter, callsOf]
  | processReport w => simp [callsAfter, callsOf]

theorem callsOf_isPrefix {before events : List Event} (h : before <+: events) (w : ℕ) :
    callsOf before w <+: callsOf events w := h.filterMap _

/-- The failures that are not those of `update_ver_malloc`. -/
def Failure.Harmless (f : Failure) : Prop := f ≠ .pointerMismatch ∧ f ≠ .replayOutOfRange

variable {pl : Pipeline}

theorem State.Ok.step {calls : ℕ → List ℕ} {s : State} (h : s.Ok pl calls) (e : Event)
    (hone : ∀ w size, e = .verMalloc w size → OneChunk ((s.processes (.worker w)).chunks w) size) :
    (∃ s', s.step pl e = .ok s' ∧ s'.Ok pl (callsAfter calls e)) ∨
      ∃ f, s.step pl e = .error f ∧ f.Harmless := by
  cases e with
  | verMalloc w size =>
    rcases h.verMalloc (hone w size rfl) with hout | hstep
    · exact .inr ⟨_, hout, by decide, by decide⟩
    · exact .inl hstep
  | endIter w => exact .inl (h.endIter w)
  | processAlloc i w =>
    rcases h.processAlloc with hbehind | hempty | hstep
    · exact .inr ⟨_, hbehind, by decide, by decide⟩
    · exact .inr ⟨_, hempty, by decide, by decide⟩
    · exact .inl hstep
  | processReport w =>
    rcases h.processReport with hempty | hstep
    · exact .inr ⟨_, hempty, by decide, by decide⟩
    · exact .inl hstep

theorem run_concat (events : List Event) (e : Event) :
    run pl (events ++ [e]) = run pl events >>= fun s => s.step pl e := by
  rw [run, List.foldlM_append, run]
  cases List.foldlM (fun s e => State.step pl s e) State.init events with
  | error f => rfl
  | ok s =>
    show (s.step pl e >>= pure) = s.step pl e
    cases s.step pl e <;> rfl

theorem CallsOneChunk.mono {before events : List Event} (h : CallsOneChunk pl events)
    (hpre : before <+: events) :
    CallsOneChunk pl before := fun past w size hpast => h past w size (hpast.trans hpre)

theorem run_ok {events : List Event} (h : CallsOneChunk pl events) :
    (∃ s, run pl events = .ok s ∧ s.Ok pl (callsOf events)) ∨ ∃ f, run pl events = .error f ∧ f.Harmless := by
  induction events using List.reverseRecOn with
  | nil => exact .inl ⟨_, rfl, State.Ok.init⟩
  | append_singleton events e ih =>
    rw [run_concat, callsOf_concat]
    rcases ih (h.mono (List.prefix_append _ _)) with ⟨s, hs, hok⟩ | ⟨f, hf, hharmless⟩
    · rw [hs]
      refine hok.step e fun w size he => ?_
      exact h events w size (by rw [he]) s hs
    · exact .inr ⟨f, by rw [hf]; rfl, hharmless⟩

/-- The blocks of the calls that an entry has followed are mapped. -/
theorem Tracks.maps {source : ℕ} {calls : List ℕ} {rs : List VerMallocInstance} {p : Process}
    (h : Tracks source calls rs (p.chunks source)) (hfits : Fits (verMallocInit source) calls)
    (hcovers : p.Covers source) {r : VerMallocInstance} (hr : r ∈ rs) : p.Maps r := by
  obtain ⟨done, ⟨rest, rfl⟩, rfl, hc⟩ := h
  obtain ⟨_, hptr, hlast⟩ := mem_recordsFrom hr
  have hok : ChunkOk (p.chunks source) := by
    rw [hc]
    exact (chunkOk_init source).foldl (fits_append.1 hfits).1
  have hbegin : (p.chunks source).begin = (verMallocInit source).begin := by rw [hc, chunkAfter, begin_foldl]
  have hnext : r.ptr + r.size ≤ (p.chunks source).nextChunk := by
    refine le_trans ?_ hok.le
    rw [hc]
    exact hlast
  have hfirst : (p.chunks source).begin ≤ r.ptr := by
    rw [hbegin]
    exact ((chunkOk_init source).begin_le).trans hptr
  intro a hle hlt
  refine hcovers _ (Nat.dvd_mul_left _ _) ?_ ?_
  · obtain ⟨k, hk⟩ := hok.begin_aligned
    simp only [pageOf, pageSize] at hk ⊢
    omega
  · simp only [pageOf, pageSize]
    omega

/-- Versioned allocation replays exactly in every run whose calls need at most one more chunk each: no assertion
of `update_ver_malloc` fails, every process behind a worker has the entry that the worker had after the calls
whose records it has processed, and the blocks of these calls are mapped with their shadows. -/
theorem replays_exactly {events : List Event} (h : CallsOneChunk pl events) : ReplaysExactly pl events := by
  rcases run_ok h with ⟨s, hs, hok⟩ | ⟨f, hf, hharmless⟩
  · rw [ReplaysExactly, hs]
    refine ⟨nofun, nofun, fun s' hs' i source hi => ?_⟩
    rw [← hs] at hs'
    obtain rfl : s = s' := Except.ok.inj (hs.symm.trans hs')
    have htracks := hok.behind i source hi
    refine ⟨fun before t hpre ht hlen => ?_, fun r hr => htracks.maps (hok.fits source)
      (hok.covers i source) hr⟩
    rcases run_ok (h.mono hpre) with ⟨t', ht', hokt⟩ | ⟨f, hf, _⟩
    · obtain rfl : t = t' := Except.ok.inj (ht.symm.trans ht')
      obtain ⟨done, hdone, hrs, hc⟩ := htracks
      rw [hrs, length_recordsFrom] at hlen
      have hsame : callsOf before source = done :=
        (List.prefix_of_prefix_length_le (callsOf_isPrefix hpre source) hdone hlen.le).eq_of_length hlen
      rw [hc, hokt.own source, hsame]
    · rw [ht] at hf
      cases hf
  · refine ⟨?_, ?_, fun s hs => ?_⟩
    · rw [hf]
      exact fun heq => hharmless.1 (Except.error.inj heq)
    · rw [hf]
      exact fun heq => hharmless.2 (Except.error.inj heq)
    · rw [hf] at hs
      cases hs

def twoStages : Pipeline := ⟨fun w => w, fun i => i, fun _ => 1, fun _ => Nat.one_pos⟩

theorem replays_exactly_twoStages : ReplaysExactly twoStages
    [.verMalloc 0 100, .verMalloc 0 5000, .endIter 0, .processAlloc (.worker 1) 0,
    .processAlloc .commit 0] := by
  refine replays_exactly fun before w size hpre s hs => ?_
  rcases before with _ | ⟨e, _ | ⟨e', before⟩⟩
  · obtain ⟨heq, _⟩ := List.cons_prefix_cons.1 hpre
    cases heq
    cases hs
    decide
  · obtain ⟨rfl, htail⟩ := List.cons_prefix_cons.1 hpre
    obtain ⟨heq, _⟩ := List.cons_prefix_cons.1 htail
    cases heq
    cases hs
    decide
  · obtain ⟨-, htail⟩ := List.cons_prefix_cons.1 hpre
    obtain ⟨-, hrest⟩ := List.cons_prefix_cons.1 htail
    have hmem := hrest.subset (List.mem_append_right before (List.mem_singleton.2 rfl))
    simp at hmem

/-- A call that needs two chunks is not replayed: the second page stays unmapped. -/
example : ((run twoStages [.verMalloc 0 8192, .endIter 0, .processAlloc (.worker 1) 0]).toOption.map fun s =>
    ((s.processes (.worker 0)).chunks 0).nextChunk - ((s.processes (.worker 1)).chunks 0).nextChunk) =
    some verMallocChunkSize := by
  decide +kernel

end Cpf.Smtx.VerMalloc
