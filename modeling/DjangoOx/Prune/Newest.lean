import DjangoOx.Prune.Race
import Mathlib.Data.Finset.Max
import Mathlib.Data.List.Count

/-! A schedule's newest tick that reads, under runs of `ox_prune` and workers: it stays in every run
where no worker commits a tick beneath unreadable ones alone once a run has read past them. -/
namespace DjangoOx

open Machine

variable {κ : Type} [LinearOrder κ] {col : KeyColumn κ} {ever ever' log log' : List (StoredTick κ)}
  {x y row : StoredTick κ} {run : PruneRun κ} {name : κ} {c : ℤ} {pk : ℕ}

/-- An unreadable tick of the row's schedule sorts after it. -/
def Beneath (col : KeyColumn κ) (log : List (StoredTick κ)) (x : StoredTick κ) : Prop :=
  ∃ u ∈ log, u.unreadable ∧ col.same x u ∧ x.scheduledFor < u.scheduledFor

/-- The newest tick of its schedule that reads, before a cutoff and beneath unreadable ones. -/
structure Sunken (col : KeyColumn κ) (log : List (StoredTick κ)) (c : ℤ) (x : StoredTick κ) :
    Prop where
  mem : x ∈ log
  reads : x.unreadable = false
  old : x.scheduledFor < c
  beneath : Beneath col log x
  newest : ¬ NewerReadable col log x

/-- How many ticks of its schedule sort after a row. -/
def above (col : KeyColumn κ) (log : List (StoredTick κ)) (x : StoredTick κ) : ℕ :=
  log.countP fun r => col.same x r ∧ x.scheduledFor < r.scheduledFor

/-- What a statement of another run, or a worker's commit, does to the log. -/
structure LogStep (col : KeyColumn κ) (ever log ever' log' : List (StoredTick κ)) : Prop where
  grows : ever ⊆ ever'
  newer : ∀ x, NewerReadable col log x → NewerReadable col log' x
  unreadable : ∀ u ∈ log, u.unreadable → u ∈ log'
  back : ∀ x ∈ ever, x ∈ log' → x ∈ log
  sunken : ∀ c x, Sunken col log' c x → x ∈ ever → Sunken col log c x
  place : ∀ c x, Sunken col log' c x → x ∈ ever → above col log x ≤ above col log' x

theorem exists_newest (h : NewerReadable col log x) :
    ∃ r ∈ log, r.unreadable = false ∧ col.same x r ∧ x.scheduledFor < r.scheduledFor ∧
      ¬ NewerReadable col log r := by
  obtain ⟨r₀, hr₀, hread₀, hsame₀, hlt₀⟩ := h
  have hne : (log.toFinset.filter fun r => r.unreadable = false ∧ col.same x r).Nonempty :=
    ⟨r₀, by simp [hr₀, hread₀, hsame₀]⟩
  obtain ⟨r, hr, hmax⟩ := Finset.exists_max_image _ (·.scheduledFor) hne
  obtain ⟨hlog, hread, hsame⟩ := by simpa using hr
  have hle := hmax r₀ (by simp [hr₀, hread₀, hsame₀])
  refine ⟨r, hlog, hread, hsame, by omega, fun ⟨r', hr', hread', hsame', hlt'⟩ => ?_⟩
  have hle' := hmax r' (by simp [hr', hread', KeyColumn.same_trans hsame hsame'])
  omega

/-- A `DELETE` of ticks that each have a newer one that reads. -/
theorem logStep_delete {pks : List ℕ}
    (h : ∀ x ∈ log, x.pk ∈ pks → x.unreadable = false ∧ NewerReadable col log x) :
    LogStep col ever log ever (deleteTicks log pks).1 := by
  have hstay : ∀ u ∈ log, (u.unreadable ∨ ¬ NewerReadable col log u) → u ∈ (deleteTicks log pks).1 := by
    intro u hu hor
    refine mem_deleteTicks.mpr ⟨hu, fun hpk => ?_⟩
    obtain ⟨hread, hnew⟩ := h u hu hpk
    rcases hor with hunread | hnot
    · rw [hread] at hunread
      cases hunread
    · exact hnot hnew
  have hnewer : ∀ x, NewerReadable col log x → NewerReadable col (deleteTicks log pks).1 x := by
    intro x hx
    obtain ⟨r, hr, hread, hsame, hlt, hmax⟩ := exists_newest hx
    exact ⟨r, hstay r hr (.inr hmax), hread, hsame, hlt⟩
  have hback : ∀ x, x ∈ (deleteTicks log pks).1 → x ∈ log := fun x hx => (mem_deleteTicks.mp hx).1
  have hsunken : ∀ c x, Sunken col (deleteTicks log pks).1 c x → Sunken col log c x := by
    intro c x hx
    obtain ⟨u, hu, hrest⟩ := hx.beneath
    exact ⟨hback x hx.mem, hx.reads, hx.old, ⟨u, hback u hu, hrest⟩, fun hn => hx.newest (hnewer x hn)⟩
  refine ⟨fun _ hx => hx, hnewer, fun u hu hun => hstay u hu (.inl hun), fun x _ => hback x,
    fun c x hx _ => hsunken c x hx, fun c x hx _ => ?_⟩
  unfold above deleteTicks
  rw [List.countP_filter]
  apply List.countP_mono_left
  intro r hr hq
  obtain ⟨hsame, hlt⟩ := of_decide_eq_true hq
  have hread : r.unreadable = true := by
    by_contra hread
    exact (hsunken c x hx).newest ⟨r, hr, by simpa using hread, hsame, hlt⟩
  have hkept := (mem_deleteTicks.mp (hstay r hr (.inl hread))).2
  simp [hsame, hlt, hkept]

theorem logStep_commit (hread : row.unreadable = false) (hfresh : row ∉ ever) :
    LogStep col ever log (ever ++ [row]) (log ++ [row]) := by
  have hback : ∀ x ∈ ever, x ∈ log ++ [row] → x ∈ log := by
    intro x hx hmem
    rcases List.mem_append.mp hmem with h | h
    · exact h
    · exact absurd (List.mem_singleton.mp h ▸ hx) hfresh
  have hnewer : ∀ x, NewerReadable col log x → NewerReadable col (log ++ [row]) x := by
    rintro x ⟨r, hr, hrest⟩
    exact ⟨r, List.mem_append_left _ hr, hrest⟩
  have hsunken : ∀ c x, Sunken col (log ++ [row]) c x → x ∈ ever → Sunken col log c x := by
    intro c x hx hmem
    obtain ⟨u, hu, hun, hrest⟩ := hx.beneath
    refine ⟨hback x hmem hx.mem, hx.reads, hx.old, ⟨u, ?_, hun, hrest⟩, fun hn => hx.newest (hnewer x hn)⟩
    rcases List.mem_append.mp hu with h | h
    · exact h
    · rw [List.mem_singleton.mp h, hread] at hun
      cases hun
  refine ⟨fun _ hx => List.mem_append_left _ hx, hnewer, fun u hu _ => List.mem_append_left _ hu, hback,
    hsunken, fun c x _ _ => ?_⟩
  unfold above
  rw [List.countP_append]
  omega

namespace PruneRun

/-- The run has read past the newest ticks of a key. -/
def Met (run : PruneRun κ) (name : κ) : Prop :=
  run.anchors name ≠ none ∨ name ∈ run.unanchored ∨
    match run.phase with
    | .lookup name' offset _ _ => name' = name ∧ 0 < offset
    | .reading _ _ (.window name' _ _ _) => name' = name
    | _ => False

/-- A row of a page still to be sorted. -/
def RestOk (ever : List (StoredTick κ)) (run : PruneRun κ) (row : StoredTick κ) : Prop :=
  row ∈ ever ∧ row.scheduledFor < run.cutoff

/-- A row of a page that is not the tick kept for its key. -/
def OldOk (col : KeyColumn κ) (ever : List (StoredTick κ)) (run : PruneRun κ) (row : StoredTick κ) :
    Prop :=
  run.RestOk ever row ∧ row.unreadable = false ∧
    (run.anchors (row.key col) ≠ none ∨ row.key col ∈ run.unanchored) ∧
    run.anchors (row.key col) ≠ some row.pk

def GoalOk (col : KeyColumn κ) (ever : List (StoredTick κ)) (run : PruneRun κ) (name : κ) :
    LookupGoal κ → Prop
  | .keys _ => True
  | .batch rest old _ _ => (∀ row ∈ rest, run.RestOk ever row) ∧ (∀ row ∈ old, run.OldOk col ever row) ∧
      run.anchors name = none ∧ name ∉ run.unanchored

/-- What a window's reading has of a sunken tick: it is among the rows to come with only unreadable
ones before it, it is the first to read, or the whole window is above it. -/
def WindowOk (col : KeyColumn κ) (ever log : List (StoredTick κ)) (todo : List ℕ)
    (got : List (StoredTick κ)) (offset size : ℕ) (x : StoredTick κ) : Prop :=
  ((∃ pre post, todo = pre ++ x.pk :: post ∧ ∀ pk ∈ pre, ∃ r ∈ ever, r.pk = pk ∧ r.unreadable) ∧
      ∀ g ∈ got, g.unreadable) ∨
    (got.find? fun row => !row.unreadable) = some x ∨
    ((∀ pk ∈ todo, ∃ r ∈ log, r.pk = pk ∧ r.unreadable) ∧ (∀ g ∈ got, g.unreadable) ∧
      got.length + todo.length = size ∧ offset + size ≤ above col log x)

def ReadOk (col : KeyColumn κ) (ever log : List (StoredTick κ)) (run : PruneRun κ) (todo : List ℕ)
    (got : List (StoredTick κ)) : TickReader κ → Prop
  | .window name offset size goal => run.GoalOk col ever name goal ∧
      (∀ pk ∈ todo, ∃ r ∈ ever, r.pk = pk ∧ col.names name r) ∧
      (∀ g ∈ got, g ∈ ever ∧ col.names name g) ∧
      ∀ x, Sunken col log run.cutoff x → x.key col = name →
        WindowOk col ever log todo got offset size x
  | .page => (∀ pk ∈ todo, ∃ r ∈ ever, r.pk = pk ∧ r.scheduledFor < run.cutoff) ∧
      ∀ g ∈ got, run.RestOk ever g

/-- Rows to go, with a newer tick that reads as long as they are there. -/
def Covered (col : KeyColumn κ) (ever log : List (StoredTick κ)) (pks : List ℕ) : Prop :=
  ∀ pk ∈ pks, ∃ x ∈ ever, x.pk = pk ∧ x.unreadable = false ∧ (x ∈ log → NewerReadable col log x)

def PhaseOk (col : KeyColumn κ) (ever log : List (StoredTick κ)) (run : PruneRun κ) : Prop :=
  match run.phase with
  | .lookup name offset _ goal => run.GoalOk col ever name goal ∧
      ∀ x, Sunken col log run.cutoff x → x.key col = name → 0 < offset → offset ≤ above col log x
  | .reading todo got reader => run.ReadOk col ever log todo got reader
  | .sorting rest old _ _ => (∀ row ∈ rest, run.RestOk ever row) ∧ ∀ row ∈ old, run.OldOk col ever row
  | .older old pks _ _ => (∀ row ∈ old, run.OldOk col ever row) ∧ Covered col ever log pks
  | .doomed pks _ _ => Covered col ever log pks
  | _ => True

structure Ok (col : KeyColumn κ) (ever log : List (StoredTick κ)) (run : PruneRun κ) : Prop where
  anchored : ∀ x, Sunken col log run.cutoff x → x.key col ∉ run.unanchored ∧
    (run.anchors (x.key col) = none ∨ run.anchors (x.key col) = some x.pk)
  kept : ∀ name pk, run.anchors name = some pk → pk ∈ run.protectedPks ∧
    ∃ x ∈ ever, x.pk = pk ∧ x.unreadable = false ∧ col.names name x
  phase : run.PhaseOk col ever log

variable {goal : LookupGoal κ} {todo : List ℕ} {got : List (StoredTick κ)} {offset size : ℕ}

omit [LinearOrder κ] in
theorem RestOk.grow (h : run.RestOk ever row) (hg : ever ⊆ ever') : run.RestOk ever' row :=
  ⟨hg h.1, h.2⟩

omit [LinearOrder κ] in
theorem OldOk.grow (h : run.OldOk col ever row) (hg : ever ⊆ ever') : run.OldOk col ever' row :=
  ⟨h.1.grow hg, h.2⟩

omit [LinearOrder κ] in
theorem GoalOk.grow (h : run.GoalOk col ever name goal) (hg : ever ⊆ ever') :
    run.GoalOk col ever' name goal := by
  cases goal with
  | keys rest => trivial
  | batch rest old last full =>
    obtain ⟨hrest, hold, hn⟩ := h
    exact ⟨fun r hr => (hrest r hr).grow hg, fun r hr => (hold r hr).grow hg, hn⟩

theorem Covered.later {pks : List ℕ} (h : Covered col ever log pks)
    (hs : LogStep col ever log ever' log') : Covered col ever' log' pks := by
  intro pk hpk
  obtain ⟨x, hx, hxpk, hread, hnew⟩ := h pk hpk
  exact ⟨x, hs.grows hx, hxpk, hread, fun hmem => hs.newer x (hnew (hs.back x hx hmem))⟩

theorem WindowOk.later (h : WindowOk col ever log todo got offset size x)
    (hs : LogStep col ever log ever' log') (hx : Sunken col log' c x) (hmem : x ∈ ever) :
    WindowOk col ever' log' todo got offset size x := by
  rcases h with ⟨⟨pre, post, heq, hpre⟩, hgot⟩ | hfirst | ⟨htodo, hgot, hlen, hplace⟩
  · refine .inl ⟨⟨pre, post, heq, fun pk hpk => ?_⟩, hgot⟩
    obtain ⟨r, hr, hrest⟩ := hpre pk hpk
    exact ⟨r, hs.grows hr, hrest⟩
  · exact .inr (.inl hfirst)
  · refine .inr (.inr ⟨fun pk hpk => ?_, hgot, hlen, hplace.trans (hs.place c x hx hmem)⟩)
    obtain ⟨r, hr, hpk, hun⟩ := htodo pk hpk
    exact ⟨r, hs.unreadable r hr hun, hpk, hun⟩

/-- A run's facts survive the steps of others, when no tick comes beneath what it has read past. -/
theorem Ok.later (h : run.Ok col ever log) (hs : LogStep col ever log ever' log')
    (hnew : ∀ x, Sunken col log' run.cutoff x → x ∉ ever → ¬ run.Met (x.key col)) :
    run.Ok col ever' log' := by
  constructor
  · intro x hx
    by_cases hmem : x ∈ ever
    · exact h.anchored x (hs.sunken _ x hx hmem)
    · have hmet := hnew x hx hmem
      unfold Met at hmet
      push Not at hmet
      exact ⟨hmet.2.1, .inl hmet.1⟩
  · intro name pk hpk
    obtain ⟨hp, x, hx, hrest⟩ := h.kept name pk hpk
    exact ⟨hp, x, hs.grows hx, hrest⟩
  · have hphase := h.phase
    unfold PhaseOk at hphase ⊢
    cases hp : run.phase with
    | idle => trivial
    | keys rest => trivial
    | paging after => trivial
    | lookup name offset size goal =>
      rw [hp] at hphase
      refine ⟨hphase.1.grow hs.grows, fun x hx hname hpos => ?_⟩
      by_cases hmem : x ∈ ever
      · exact (hphase.2 x (hs.sunken _ x hx hmem) hname hpos).trans (hs.place _ x hx hmem)
      · have hmet : run.Met (x.key col) := .inr (.inr (by rw [hp]; exact ⟨hname.symm, hpos⟩))
        exact absurd hmet (hnew x hx hmem)
    | reading todo got reader =>
      rw [hp] at hphase
      cases reader with
      | window name offset size goal =>
        obtain ⟨hgoal, htodo, hgot, hwin⟩ := hphase
        refine ⟨hgoal.grow hs.grows, fun pk hpk => ?_, fun g hg => ⟨hs.grows (hgot g hg).1, (hgot g hg).2⟩,
          fun x hx hname => ?_⟩
        · obtain ⟨r, hr, hrest⟩ := htodo pk hpk
          exact ⟨r, hs.grows hr, hrest⟩
        · by_cases hmem : x ∈ ever
          · exact (hwin x (hs.sunken _ x hx hmem) hname).later hs hx hmem
          · have hmet : run.Met (x.key col) := .inr (.inr (by rw [hp]; exact hname.symm))
            exact absurd hmet (hnew x hx hmem)
      | page =>
        refine ⟨fun pk hpk => ?_, fun g hg => (hphase.2 g hg).grow hs.grows⟩
        obtain ⟨r, hr, hrest⟩ := hphase.1 pk hpk
        exact ⟨r, hs.grows hr, hrest⟩
    | sorting rest old last full =>
      rw [hp] at hphase
      exact ⟨fun r hr => (hphase.1 r hr).grow hs.grows, fun r hr => (hphase.2 r hr).grow hs.grows⟩
    | older old pks last full =>
      rw [hp] at hphase
      exact ⟨fun r hr => (hphase.1 r hr).grow hs.grows, hphase.2.later hs⟩
    | doomed pks last full =>
      rw [hp] at hphase
      exact Covered.later hphase hs

theorem ended_ok : (ended : PruneRun κ).Ok col ever log :=
  ⟨fun _ _ => ⟨List.not_mem_nil, .inl rfl⟩, fun _ _ h => (by cases h), trivial⟩

theorem begun_ok {batchSize : ℕ} {keys : List κ} : (begun c batchSize keys).Ok col ever log :=
  ⟨fun _ _ => ⟨List.not_mem_nil, .inl rfl⟩, fun _ _ h => (by cases h), trivial⟩

/-- The place of a sunken tick among the ticks of its key, newest first. -/
theorem newestFirst_split (hk : TickKeys col log) (hx : Sunken col log c x) :
    ∃ A B, col.newestFirst log (x.key col) = A ++ x :: B ∧ A.length = above col log x ∧
      ∀ a ∈ A, a ∈ log ∧ a.unreadable := by
  have hnames : ∀ r, col.names (x.key col) r = col.same x r := fun r => KeyColumn.names_key hx.reads
  have hmem : x ∈ col.newestFirst log (x.key col) :=
    mem_newestFirst.mpr ⟨hx.mem, (hnames x).trans (KeyColumn.same_refl hx.reads)⟩
  obtain ⟨A, B, heq⟩ := List.append_of_mem hmem
  have hperm : (col.newestFirst log (x.key col)).Perm (log.filter (col.names (x.key col))) :=
    List.perm_insertionSort _ _
  have hnodup : (A ++ x :: B).Nodup := by
    rw [← heq]
    exact hperm.nodup_iff.mpr (hk.pks.of_map.filter _)
  have hsorted : (A ++ x :: B).Pairwise fun a b => b.scheduledFor ≤ a.scheduledFor :=
    heq ▸ pairwise_newestFirst
  have hA : ∀ a ∈ A, a ∈ log ∧ col.same x a ∧ x.scheduledFor < a.scheduledFor := by
    intro a ha
    have hla : a ∈ col.newestFirst log (x.key col) := by simp [heq, ha]
    obtain ⟨hlog, hname⟩ := mem_newestFirst.mp hla
    rw [hnames] at hname
    have hle := (List.pairwise_append.mp hsorted).2.2 a ha x (by simp)
    have hne : x ≠ a := by
      rintro rfl
      exact List.disjoint_of_nodup_append hnodup ha (by simp)
    have hsched : x.scheduledFor ≠ a.scheduledFor := fun he =>
      hne (hk.instants x hx.mem a hlog hname he)
    exact ⟨hlog, hname, by omega⟩
  refine ⟨A, B, heq, ?_, fun a ha => ⟨(hA a ha).1, ?_⟩⟩
  · have hcount : above col log x = (A ++ x :: B).countP fun r => x.scheduledFor < r.scheduledFor := by
      rw [← heq, hperm.countP_eq, List.countP_filter]
      unfold above
      apply List.countP_congr
      intro r _
      rw [hnames, Bool.decide_and, Bool.and_comm]
      simp
    have hB : ∀ b ∈ x :: B, ¬ x.scheduledFor < b.scheduledFor := by
      intro b hb
      rcases List.mem_cons.mp hb with rfl | hb
      · exact lt_irrefl _
      · exact not_lt_of_ge (List.rel_of_pairwise_cons (List.pairwise_append.mp hsorted).2.1 hb)
    rw [hcount, List.countP_append, List.countP_eq_length.mpr fun a ha => by simpa using (hA a ha).2.2,
      List.countP_eq_zero.mpr fun b hb => by simpa using hB b hb, Nat.add_zero]
  · obtain ⟨hlog, hsame, hlt⟩ := hA a ha
    by_contra hread
    exact hx.newest ⟨a, hlog, by simpa using hread, hsame, hlt⟩

section Steps

variable {rest old : List (StoredTick κ)} {last : ℕ} {full : Bool} {after : Option ℕ}
  {reader : TickReader κ}

/-- The log, and every row it held, by primary key. -/
structure LogOk (col : KeyColumn κ) (ever log : List (StoredTick κ)) : Prop where
  keys : TickKeys col log
  held : log ⊆ ever
  pks : (ever.map (·.pk)).Nodup

theorem LogOk.eq_of_pk (hl : LogOk col ever log) (hx : x ∈ ever) (hy : y ∈ ever)
    (h : x.pk = y.pk) : x = y :=
  List.inj_on_of_nodup_map hl.pks hx hy h

/-- A window begins: a sunken tick is in it under unreadable ones, or below it. -/
theorem WindowOk.start (hl : LogOk col ever log) (hx : Sunken col log c x)
    (hplace : 0 < offset → offset ≤ above col log x) :
    WindowOk col ever log
      ((((col.newestFirst log (x.key col)).drop offset).take size).map (·.pk)) [] offset size x := by
  obtain ⟨A, B, heq, hlen, hA⟩ := newestFirst_split hl.keys hx
  have hoff : offset ≤ A.length := by
    rcases Nat.eq_zero_or_pos offset with h | h
    · omega
    · exact hlen ▸ hplace h
  rw [heq, List.drop_append_of_le_length hoff]
  by_cases hin : A.length < offset + size
  · left
    have hlt : (A.drop offset).length < size := by
      rw [List.length_drop]
      omega
    obtain ⟨k, hk⟩ : ∃ k, size - (A.drop offset).length = k + 1 := ⟨_, (Nat.succ_pred (by omega)).symm⟩
    rw [List.take_append, List.take_of_length_le hlt.le, hk, List.take_succ_cons, List.map_append,
      List.map_cons]
    refine ⟨⟨_, _, rfl, fun pk hpk => ?_⟩, by simp⟩
    obtain ⟨a, ha, rfl⟩ := List.mem_map.mp hpk
    obtain ⟨hlog, hun⟩ := hA a (List.mem_of_mem_drop ha)
    exact ⟨a, hl.held hlog, rfl, hun⟩
  · right; right
    have hle : size ≤ (A.drop offset).length := by
      rw [List.length_drop]
      omega
    rw [List.take_append_of_le_length hle]
    refine ⟨fun pk hpk => ?_, by simp, ?_, by omega⟩
    · obtain ⟨a, ha, rfl⟩ := List.mem_map.mp hpk
      obtain ⟨hlog, hun⟩ := hA a (List.mem_of_mem_drop (List.mem_of_mem_take ha))
      exact ⟨a, hlog, rfl, hun⟩
    · rw [List.length_map, List.length_take, Nat.min_eq_left hle]
      simp

/-- The next row of a window is read. -/
theorem WindowOk.read (h : WindowOk col ever log (pk :: todo) got offset size x)
    (hl : LogOk col ever log) (hx : Sunken col log c x) :
    WindowOk col ever log todo (got ++ (log.find? fun row => row.pk = pk).toList) offset size x := by
  have hfind : ∀ r ∈ log, r.pk = pk → (log.find? fun row => row.pk = pk) = some r := by
    intro r hr hpk
    cases hf : log.find? fun row => row.pk = pk with
    | none => exact absurd hpk (by simpa using List.find?_eq_none.mp hf r hr)
    | some r' =>
      have heq : r' = r := hl.eq_of_pk (hl.held (List.mem_of_find?_eq_some hf)) (hl.held hr)
        ((by simpa using List.find?_some hf : r'.pk = pk).trans hpk.symm)
      rw [heq]
  rcases h with ⟨⟨pre, post, heq, hpre⟩, hgot⟩ | hfirst | ⟨htodo, hgot, hlen, hplace⟩
  · cases pre with
    | nil =>
      obtain ⟨rfl, rfl⟩ := List.cons.inj heq
      right; left
      rw [hfind x hx.mem rfl, List.find?_append, List.find?_eq_none.mpr (by simpa using hgot)]
      simp [hx.reads]
    | cons pk' pre =>
      obtain ⟨rfl, rfl⟩ := List.cons.inj heq
      left
      refine ⟨⟨pre, post, rfl, fun k hk => hpre k (by simp [hk])⟩, fun g hg => ?_⟩
      rcases List.mem_append.mp hg with hg | hg
      · exact hgot g hg
      · have hf := Option.mem_toList.mp hg
        obtain ⟨r, hr, hpk, hun⟩ := hpre pk (by simp)
        have heq : g = r := hl.eq_of_pk (hl.held (List.mem_of_find?_eq_some hf)) hr
          ((by simpa using List.find?_some hf : g.pk = pk).trans hpk.symm)
        exact heq ▸ hun
  · right; left
    rw [List.find?_append, hfirst]
    rfl
  · right; right
    obtain ⟨r, hr, hpk, hun⟩ := htodo pk (by simp)
    rw [hfind r hr hpk]
    refine ⟨fun k hk => htodo k (by simp [hk]), fun g hg => ?_, ?_, hplace⟩
    · rcases List.mem_append.mp hg with hg | hg
      · exact hgot g hg
      · exact List.mem_singleton.mp hg ▸ hun
    · simp only [Option.toList_some, List.length_append, List.length_cons, List.length_nil] at hlen ⊢
      omega

theorem Ok.move (h : run.Ok col ever log) (p : PrunePhase κ)
    (hp : PhaseOk col ever log { run with phase := p }) :
    Ok col ever log { run with phase := p } :=
  ⟨h.anchored, h.kept, hp⟩

/-- A window read to its end without a tick that reads has a sunken tick below it. -/
theorem WindowOk.below (h : WindowOk col ever log [] got offset size x)
    (hnone : (got.find? fun row => !row.unreadable) = none) :
    got.length = size ∧ offset + size ≤ above col log x := by
  rcases h with ⟨⟨pre, post, heq, -⟩, -⟩ | hfirst | ⟨-, -, hlen, hplace⟩
  · simp at heq
  · rw [hnone] at hfirst
    cases hfirst
  · exact ⟨hlen, hplace⟩

/-- A window with a tick that reads has a sunken tick first. -/
theorem WindowOk.first (h : WindowOk col ever log [] got offset size x)
    (hfound : (got.find? fun row => !row.unreadable) = some row) : row = x := by
  rcases h with ⟨⟨pre, post, heq, -⟩, -⟩ | hfirst | ⟨-, hgot, -, -⟩
  · simp at heq
  · rw [hfound] at hfirst
    exact Option.some.inj hfirst
  · have hread : row.unreadable = false := by simpa using List.find?_some hfound
    have hun := hgot row (List.mem_of_find?_eq_some hfound)
    rw [hread] at hun
    cases hun

theorem Ok.read_window (h : run.Ok col ever log)
    (hr : run.ReadOk col ever log [] got (.window name offset size goal)) :
    (run.read got (.window name offset size goal)).Ok col ever log := by
  obtain ⟨hgoal, -, hgot, hwin⟩ := hr
  unfold PruneRun.read
  cases hf : got.find? fun row => !row.unreadable with
  | some row =>
    have hread : row.unreadable = false := by simpa using List.find?_some hf
    obtain ⟨hever, hnames⟩ := hgot row (List.mem_of_find?_eq_some hf)
    dsimp only
    unfold PruneRun.found
    constructor
    · intro x hx
      refine ⟨(h.anchored x hx).1, ?_⟩
      dsimp only
      by_cases hname : x.key col = name
      · right
        rw [hname, Function.update_self, (hwin x hx hname).first hf]
      · rw [Function.update_of_ne hname]
        exact (h.anchored x hx).2
    · intro name' pk hpk
      dsimp only at hpk
      by_cases hname : name' = name
      · subst hname
        rw [Function.update_self] at hpk
        obtain rfl := Option.some.inj hpk
        exact ⟨by simp, row, hever, rfl, hread, hnames⟩
      · rw [Function.update_of_ne hname] at hpk
        obtain ⟨hp, hx⟩ := h.kept name' pk hpk
        exact ⟨List.mem_append_left _ hp, hx⟩
    · cases goal with
      | keys rest => trivial
      | batch rest old last full =>
        obtain ⟨hrest, hold, hnone, hmiss⟩ := hgoal
        refine ⟨hrest, fun r hr => ?_⟩
        obtain ⟨hok, hreads, hmet, hne⟩ := hold r hr
        have hkey : r.key col ≠ name := by
          rintro rfl
          exact hmet.elim (fun hm => hm hnone) hmiss
        refine ⟨hok, hreads, ?_, ?_⟩
        · dsimp only
          rwa [Function.update_of_ne hkey]
        · dsimp only
          rwa [Function.update_of_ne hkey]
  | none =>
    dsimp only
    split_ifs with hshort
    · have habsent : ∀ x, Sunken col log run.cutoff x → x.key col ≠ name := by
        intro x hx hname
        have hlen := ((hwin x hx hname).below hf).1
        omega
      cases goal with
      | keys rest => exact h.move _ trivial
      | batch rest old last full =>
        obtain ⟨hrest, hold, hnone, hmiss⟩ := hgoal
        refine ⟨fun x hx => ⟨?_, (h.anchored x hx).2⟩, h.kept, hrest, fun r hr => ?_⟩
        · intro hmem
          rcases List.mem_append.mp hmem with hm | hm
          · exact (h.anchored x hx).1 hm
          · exact habsent x hx (List.mem_singleton.mp hm)
        · obtain ⟨hok, hreads, hmet, hne⟩ := hold r hr
          exact ⟨hok, hreads, hmet.imp_right fun hm => List.mem_append_left _ hm, hne⟩
    · refine h.move _ ⟨?_, fun x hx hname _ => ?_⟩
      · cases goal with
        | keys rest => trivial
        | batch rest old last full => exact hgoal
      · obtain ⟨hlen, hplace⟩ := (hwin x hx hname).below hf
        omega

theorem Ok.read_page (h : run.Ok col ever log) (hr : run.ReadOk col ever log [] got .page) :
    (run.read got .page).Ok col ever log := by
  unfold PruneRun.read
  cases got.getLast? with
  | none => exact ended_ok
  | some last => exact h.move _ ⟨hr.2, by simp⟩

theorem ReadOk.next (hl : LogOk col ever log)
    (h : run.ReadOk col ever log (pk :: todo) got reader) :
    run.ReadOk col ever log todo (got ++ (log.find? fun row => row.pk = pk).toList) reader := by
  have hfound : ∀ g ∈ (log.find? fun row => row.pk = pk).toList, g ∈ ever ∧ g.pk = pk := by
    intro g hg
    have hf := Option.mem_toList.mp hg
    exact ⟨hl.held (List.mem_of_find?_eq_some hf), by simpa using List.find?_some hf⟩
  cases reader with
  | window name offset size goal =>
    obtain ⟨hgoal, htodo, hgot, hwin⟩ := h
    refine ⟨hgoal, fun k hk => htodo k (by simp [hk]), fun g hg => ?_, fun x hx hname =>
      (hwin x hx hname).read hl hx⟩
    rcases List.mem_append.mp hg with hg | hg
    · exact hgot g hg
    · obtain ⟨hever, hpk⟩ := hfound g hg
      obtain ⟨r, hr, hrpk, hnames⟩ := htodo pk (by simp)
      have heq : g = r := hl.eq_of_pk hever hr (hpk.trans hrpk.symm)
      exact ⟨hever, heq ▸ hnames⟩
  | page =>
    obtain ⟨htodo, hgot⟩ := h
    refine ⟨fun k hk => htodo k (by simp [hk]), fun g hg => ?_⟩
    rcases List.mem_append.mp hg with hg | hg
    · exact hgot g hg
    · obtain ⟨hever, hpk⟩ := hfound g hg
      obtain ⟨r, hr, hrpk, hlt⟩ := htodo pk (by simp)
      have heq : g = r := hl.eq_of_pk hever hr (hpk.trans hrpk.symm)
      exact ⟨hever, heq ▸ hlt⟩

theorem Ok.sort (h : run.Ok col ever log) (hrow : run.RestOk ever row)
    (hrest : ∀ r ∈ rest, run.RestOk ever r) (hold : ∀ r ∈ old, run.OldOk col ever r) :
    (run.sort col row rest old last full).Ok col ever log := by
  unfold PruneRun.sort
  split_ifs with hun hmet hprot
  · exact h.move _ ⟨hrest, hold⟩
  · refine h.move _ ⟨⟨fun r hr => ?_, hold, hmet⟩, fun _ _ _ hpos => absurd hpos (lt_irrefl _)⟩
    rcases List.mem_cons.mp hr with rfl | hr
    · exact hrow
    · exact hrest r hr
  · exact h.move _ ⟨hrest, hold⟩
  · refine h.move _ ⟨hrest, fun r hr => ?_⟩
    rcases List.mem_append.mp hr with hr | hr
    · exact hold r hr
    · obtain rfl := List.mem_singleton.mp hr
      refine ⟨hrow, by simpa using hun, ?_, fun hpk => hprot (h.kept _ _ hpk).1⟩
      by_contra hnot
      push Not at hnot
      exact hmet hnot

/-- The first check: what sorts before the tick kept for its key has a newer one that reads. -/
theorem Ok.checked (h : run.Ok col ever log) (hl : LogOk col ever log)
    (hold : ∀ r ∈ old, run.OldOk col ever r) :
    Covered col ever log (olderThanTheirAnchor col log old run.anchors) := by
  intro pk hpk
  obtain ⟨row, hrow, rfl, b, hb, hanchor, a, ha, hapk, hne, hle⟩ := anchor_of_mem_older hl.keys hpk
  obtain ⟨⟨hever, -⟩, hread, -, -⟩ := hold row hrow
  refine ⟨row, hever, rfl, hread, fun _ => ?_⟩
  obtain ⟨-, y, hy, hypk, hyread, hnames⟩ := h.kept _ _ hanchor
  have hyb : y = b := hl.eq_of_pk hy (hl.held hb) hypk
  have har : a = row := hl.eq_of_pk (hl.held ha) hever hapk
  subst hyb har
  rw [KeyColumn.names_key hread] at hnames
  have hsched : a.scheduledFor ≤ y.scheduledFor := (KeyColumn.place_le_iff hnames).mp hle
  have hdiff : a.scheduledFor ≠ y.scheduledFor := fun he => hne (hl.keys.instants a ha y hb hnames he)
  exact ⟨y, hb, hyread, hnames, by omega⟩

/-- The second check: a tick that is not its schedule's newest has a newer one that reads, unless it
is sunken. -/
theorem Ok.rechecked (h : run.Ok col ever log) (hl : LogOk col ever log)
    (hold : ∀ r ∈ old, run.OldOk col ever r) {older : List ℕ} (hc : Covered col ever log older) :
    Covered col ever log ((old.filter fun row => row.pk ∉ newestOfTheirSchedules col log
      ((old.filter fun row => row.pk ∉ older).map (·.pk))).map (·.pk)) := by
  intro pk hpk
  obtain ⟨row, hrow, rfl⟩ := List.mem_map.mp hpk
  obtain ⟨hrow, hnot⟩ := List.mem_filter.mp hrow
  obtain ⟨⟨hever, hlt⟩, hread, hmet, hne⟩ := hold row hrow
  refine ⟨row, hever, rfl, hread, fun hmem => ?_⟩
  by_cases holder : row.pk ∈ older
  · obtain ⟨x, hx, hxpk, -, hnew⟩ := hc row.pk holder
    have heq : x = row := hl.eq_of_pk hx hever hxpk
    exact heq ▸ hnew (heq ▸ hmem)
  · by_contra hnew
    have hasked : row.pk ∈ (old.filter fun row => row.pk ∉ older).map (·.pk) :=
      List.mem_map_of_mem (List.mem_filter.mpr ⟨hrow, decide_eq_true holder⟩)
    obtain ⟨u, hu, hsame, hlater⟩ : ∃ r ∈ log, col.same row r ∧ row.scheduledFor < r.scheduledFor := by
      by_contra hnone
      exact of_decide_eq_true hnot (mem_newestOfTheirSchedules.mpr ⟨row, hmem, rfl, hasked, hnone⟩)
    have hun : u.unreadable = true := by
      by_contra hun
      exact hnew ⟨u, hu, by simpa using hun, hsame, hlater⟩
    have hsunken : Sunken col log run.cutoff row := ⟨hmem, hread, hlt, ⟨u, hu, hun, hsame, hlater⟩, hnew⟩
    obtain ⟨hmiss, hanch⟩ := h.anchored row hsunken
    rcases hmet with hsome | hin
    · exact hanch.elim hsome hne
    · exact hmiss hin

/-- A run's own steps, with the log as each finds it. -/
theorem Ok.next (h : run.Ok col ever log) (hl : LogOk col ever log) :
    (run.next col log).1.Ok col ever log := by
  have hphase := h.phase
  unfold PhaseOk at hphase
  unfold PruneRun.next
  cases hp : run.phase with
  | idle => exact h
  | keys rest =>
    cases rest with
    | nil => exact h.move _ trivial
    | cons name rest => exact h.move _ ⟨trivial, fun _ _ _ hpos => absurd hpos (lt_irrefl _)⟩
  | lookup name offset size goal =>
    rw [hp] at hphase
    refine h.move _ ⟨?_, fun pk hpk => ?_, by simp, fun x hx hname => ?_⟩
    · cases goal with
      | keys rest => trivial
      | batch rest old last full => exact hphase.1
    · obtain ⟨r, hr, rfl⟩ := List.mem_map.mp hpk
      obtain ⟨hmem, hnames⟩ := mem_newestFirst.mp (List.mem_of_mem_drop (List.mem_of_mem_take hr))
      exact ⟨r, hl.held hmem, rfl, hnames⟩
    · subst hname
      exact WindowOk.start hl hx (hphase.2 x hx rfl)
  | reading todo got reader =>
    rw [hp] at hphase
    cases todo with
    | nil =>
      cases reader with
      | window name offset size goal => exact h.read_window hphase
      | page => exact h.read_page hphase
    | cons pk todo =>
      have hread := ReadOk.next hl hphase
      refine h.move _ ?_
      cases reader with
      | window name offset size goal =>
        cases goal with
        | keys rest => exact hread
        | batch rest old last full => exact hread
      | page => exact hread
  | paging after =>
    refine h.move _ ⟨fun pk hpk => ?_, by simp⟩
    obtain ⟨r, hr, rfl⟩ := List.mem_map.mp hpk
    obtain ⟨hmem, hlt⟩ := List.mem_filter.mp (mem_of_mem_page hr).1
    exact ⟨r, hl.held hmem, rfl, of_decide_eq_true hlt⟩
  | sorting rest old last full =>
    rw [hp] at hphase
    cases rest with
    | nil => exact h.move _ ⟨hphase.2, h.checked hl hphase.2⟩
    | cons row rest =>
      exact h.sort (hphase.1 row (by simp)) (fun r hr => hphase.1 r (by simp [hr])) hphase.2
  | older old pks last full =>
    rw [hp] at hphase
    exact h.move _ (h.rechecked hl hphase.1 hphase.2)
  | doomed pks last full =>
    dsimp only
    split_ifs
    · exact h.move _ trivial
    · exact ended_ok

/-- What a run's step does to the log: it deletes superseded ticks, if anything. -/
theorem Ok.next_log (h : run.Ok col ever log) (hl : LogOk col ever log) :
    ∃ pks : List ℕ, (run.next col log).2 = (deleteTicks log pks).1 ∧
      ∀ x ∈ log, x.pk ∈ pks → x.unreadable = false ∧ NewerReadable col log x := by
  have hphase := h.phase
  unfold PhaseOk at hphase
  have hnone : log = (deleteTicks log []).1 := by simp [deleteTicks]
  unfold PruneRun.next
  cases hp : run.phase with
  | idle => exact ⟨[], hnone, by simp⟩
  | keys rest => cases rest <;> exact ⟨[], hnone, by simp⟩
  | lookup name offset size goal => exact ⟨[], hnone, by simp⟩
  | reading todo got reader => cases todo <;> exact ⟨[], hnone, by simp⟩
  | paging after => exact ⟨[], hnone, by simp⟩
  | sorting rest old last full => cases rest <;> exact ⟨[], hnone, by simp⟩
  | older old pks last full => exact ⟨[], hnone, by simp⟩
  | doomed pks last full =>
    rw [hp] at hphase
    refine ⟨pks, rfl, fun x hx hpk => ?_⟩
    obtain ⟨y, hy, hypk, hread, hnew⟩ := hphase x.pk hpk
    have heq : y = x := hl.eq_of_pk hy (hl.held hx) hypk
    subst heq
    exact ⟨hread, hnew hx⟩

end Steps

end PruneRun

namespace PruneRace

variable {s s' : PruneRace κ} {a : PruneAction κ}

structure Ok (col : KeyColumn κ) (s : PruneRace κ) : Prop where
  log : PruneRun.LogOk col s.ever s.log
  runs : ∀ r, (s.runs r).Ok col s.ever s.log

/-- No worker commits a tick before the cutoff of a run that has read past its schedule's newest
ticks, beneath an unreadable one and above every one that reads. -/
def CommitsAbove (col : KeyColumn κ) (s : PruneRace κ) : PruneAction κ → Prop
  | .commit row => ∀ r, (s.runs r).Met (row.key col) → row.scheduledFor < (s.runs r).cutoff →
      Beneath col s.log row → NewerReadable col s.log row
  | _ => True

theorem Ok.init (h : (pruneRace col).init s) : s.Ok col := by
  obtain ⟨hkeys, hever, hruns⟩ := h
  refine ⟨⟨hkeys, hever ▸ List.Subset.refl _, hever ▸ hkeys.pks⟩, fun r => ?_⟩
  rw [hruns r]
  exact PruneRun.ended_ok

theorem Ok.commit {row : StoredTick κ} (h : s.Ok col) (hread : row.unreadable = false)
    (hpk : row.pk ∉ s.ever.map (·.pk))
    (hunique : ∀ r ∈ s.log, col.same row r → row.scheduledFor ≠ r.scheduledFor)
    (hc : s.CommitsAbove col (.commit row)) :
    Ok col { s with log := s.log ++ [row], ever := s.ever ++ [row] } := by
  have hfresh : row ∉ s.ever := fun hmem => hpk (List.mem_map_of_mem hmem)
  have hstep : LogStep col s.ever s.log (s.ever ++ [row]) (s.log ++ [row]) :=
    logStep_commit hread hfresh
  have hpks : ((s.ever ++ [row]).map (·.pk)).Nodup := by
    rw [List.map_append]
    exact List.nodup_append'.mpr ⟨h.log.pks, List.nodup_singleton _, by simpa using hpk⟩
  have hheld : s.log ++ [row] ⊆ s.ever ++ [row] :=
    List.append_subset.mpr ⟨fun x hx => List.mem_append_left _ (h.log.held hx), by simp⟩
  have hkeys : TickKeys col (s.log ++ [row]) := by
    constructor
    · rw [List.map_append]
      refine List.nodup_append'.mpr ⟨h.log.keys.pks, List.nodup_singleton _, ?_⟩
      intro k hk hk'
      obtain ⟨x, hx, rfl⟩ := List.mem_map.mp hk
      have heq : x.pk = row.pk := List.mem_singleton.mp hk'
      exact hpk (heq ▸ List.mem_map_of_mem (h.log.held hx))
    · intro a ha b hb hsame hsched
      rcases List.mem_append.mp ha with hla | hra <;> rcases List.mem_append.mp hb with hlb | hrb
      · exact h.log.keys.instants a hla b hlb hsame hsched
      · obtain rfl := List.mem_singleton.mp hrb
        exact absurd hsched.symm (hunique a hla (KeyColumn.same_symm hsame))
      · obtain rfl := List.mem_singleton.mp hra
        exact absurd hsched (hunique b hlb hsame)
      · rw [List.mem_singleton.mp hra, List.mem_singleton.mp hrb]
  refine ⟨⟨hkeys, hheld, hpks⟩, fun r => (h.runs r).later hstep fun x hx hnew hmet => ?_⟩
  have hrow : x = row := by
    rcases List.mem_append.mp hx.mem with hmem | hmem
    · exact absurd (h.log.held hmem) hnew
    · exact List.mem_singleton.mp hmem
  subst hrow
  obtain ⟨u, hu, hun, hrest⟩ := hx.beneath
  have hbeneath : Beneath col s.log x := by
    rcases List.mem_append.mp hu with hmem | hmem
    · exact ⟨u, hmem, hun, hrest⟩
    · rw [List.mem_singleton.mp hmem, hread] at hun
      cases hun
  exact hx.newest (hstep.newer x (hc r hmet hx.old hbeneath))

theorem Ok.update (h : s.Ok col) (r : ℕ) {run : PruneRun κ} (hrun : run.Ok col s.ever s.log) :
    ∀ q, (Function.update s.runs r run q).Ok col s.ever s.log := by
  intro q
  by_cases hq : q = r
  · subst hq
    rwa [Function.update_self]
  · rw [Function.update_of_ne hq]
    exact h.runs q

theorem step_next (s : PruneRace κ) (r : ℕ) : (pruneRace col).step s (.next r) =
    some { s with
      log := ((s.runs r).next col s.log).2
      runs := Function.update s.runs r ((s.runs r).next col s.log).1 } := rfl

theorem Ok.step (h : s.Ok col) (hc : s.CommitsAbove col a)
    (hs : (pruneRace col).step s a = some s') : s'.Ok col := by
  cases a with
  | commit row =>
    obtain ⟨⟨hread, hpk, hunique⟩, heq⟩ := Option.ite_none_right_eq_some.mp hs
    obtain rfl := Option.some.inj heq
    exact h.commit hread hpk hunique hc
  | begin r cutoff batchSize keys =>
    simp only [pruneRace] at hs
    split at hs
    · obtain ⟨-, heq⟩ := Option.ite_none_right_eq_some.mp hs
      obtain rfl := Option.some.inj heq
      exact ⟨h.log, h.update r PruneRun.begun_ok⟩
    · cases hs
  | next r =>
    rw [step_next] at hs
    obtain rfl := Option.some.inj hs
    have hrun := (h.runs r).next h.log
    obtain ⟨pks, hlog, hcovered⟩ := (h.runs r).next_log h.log
    have hstep : LogStep col s.ever s.log s.ever (deleteTicks s.log pks).1 := logStep_delete hcovered
    have hheld : (deleteTicks s.log pks).1 ⊆ s.ever := fun x hx =>
      h.log.held (mem_deleteTicks.mp hx).1
    rw [hlog]
    refine ⟨⟨h.log.keys.filter _, hheld, h.log.pks⟩, fun q => ?_⟩
    exact (h.update r hrun q).later hstep fun x hx hnew => absurd (hheld hx.mem) hnew
  | stop r =>
    obtain rfl := Option.some.inj hs
    exact ⟨h.log, h.update r PruneRun.ended_ok⟩

theorem Ok.of_reaches (h : (pruneRace col).ReachesBy (CommitsAbove col) s) : s.Ok col :=
  h.invariant (Ok col) (fun _ => Ok.init) fun _ _ _ hi hc hs => hi.step hc hs

end PruneRace

/-- In a run whose commits all meet the condition, every row that goes has a strictly newer tick of
its schedule in the log that reads, at the moment of its `DELETE`. -/
theorem newest_readable_stays {s s' : PruneRace κ} {a : PruneAction κ}
    (h : (pruneRace col).ReachesBy (PruneRace.CommitsAbove col) s)
    (hs : (pruneRace col).step s a = some s') :
    ∀ row ∈ s.log, row ∉ s'.log → NewerReadable col s.log row := by
  have hok := PruneRace.Ok.of_reaches h
  intro row hrow hgone
  cases a with
  | commit row' =>
    obtain ⟨-, heq⟩ := Option.ite_none_right_eq_some.mp hs
    obtain rfl := Option.some.inj heq
    exact absurd (List.mem_append_left _ hrow) hgone
  | begin r cutoff batchSize keys =>
    simp only [pruneRace] at hs
    split at hs
    · obtain ⟨-, heq⟩ := Option.ite_none_right_eq_some.mp hs
      obtain rfl := Option.some.inj heq
      exact absurd hrow hgone
    · cases hs
  | next r =>
    rw [PruneRace.step_next] at hs
    obtain rfl := Option.some.inj hs
    obtain ⟨pks, hlog, hcovered⟩ := (hok.runs r).next_log hok.log
    rw [hlog, mem_deleteTicks] at hgone
    exact (hcovered row hrow (by_contra fun hpk => hgone ⟨hrow, hpk⟩)).2
  | stop r =>
    obtain rfl := Option.some.inj hs
    exact absurd hrow hgone

/-- A log before any run. -/
def PruneRace.start (log : List (StoredTick κ)) : PruneRace κ := ⟨log, log, fun _ => .ended⟩

/-- The logs before and after the last step of a run. -/
theorem PruneRace.logs_of_run {s₀ : PruneRace κ} {as : List (PruneAction κ)} {r : ℕ}
    {before after : List (StoredTick κ)}
    (hb : ((pruneRace col).run s₀ as).map (·.log) = some before)
    (ha : ((pruneRace col).run s₀ (as ++ [.next r])).map (·.log) = some after) :
    ∃ s s', (pruneRace col).run s₀ as = some s ∧ (pruneRace col).step s (.next r) = some s' ∧
      s.log = before ∧ s'.log = after := by
  obtain ⟨s, hs, rfl⟩ := Option.map_eq_some_iff.mp hb
  rw [System.run_append, hs, Option.bind_some, System.run_cons (PruneRace.step_next s r)] at ha
  exact ⟨s, _, hs, rfl, rfl, Option.some.inj ha⟩

/-- Two ticks of one schedule, both before the cutoff. -/
def twoTicks : PruneRace ℕ := .start [⟨1, .text 7, 10, true⟩, ⟨2, .text 7, 20, true⟩]

/-- A run alone with them, up to its `DELETE`. -/
def pruneTwo : List (PruneAction ℕ) := .begin 0 50 10 [7] :: List.replicate 13 (.next 0)

theorem newest_readable_stays_two : ∃ s s' : PruneRace ℕ,
    (pruneRace ⟨id, 0⟩).step s (.next 0) = some s' ∧ s.log.map (·.pk) = [1, 2] ∧
      s'.log.map (·.pk) = [2] ∧ ∀ row ∈ s.log, row ∉ s'.log → NewerReadable ⟨id, 0⟩ s.log row := by
  have hinit : (pruneRace (⟨id, 0⟩ : KeyColumn ℕ)).init twoTicks :=
    ⟨⟨by decide, by decide⟩, rfl, fun _ => rfl⟩
  have hquiet : ∀ s : PruneRace ℕ, ∀ a ∈ pruneTwo, s.CommitsAbove ⟨id, 0⟩ a := by
    intro s a ha
    rcases List.mem_cons.mp ha with rfl | ha
    · trivial
    · obtain rfl := List.eq_of_mem_replicate ha
      trivial
  have hbefore : ((pruneRace ⟨id, 0⟩).run twoTicks pruneTwo).map (·.log) = some twoTicks.log := by
    decide +kernel
  have hafter : ((pruneRace ⟨id, 0⟩).run twoTicks (pruneTwo ++ [.next 0])).map (·.log) =
      some [⟨2, .text 7, 20, true⟩] := by
    decide +kernel
  obtain ⟨s, s', hs, hstep, hlog, hlog'⟩ := PruneRace.logs_of_run hbefore hafter
  have h : (pruneRace ⟨id, 0⟩).ReachesBy (PruneRace.CommitsAbove ⟨id, 0⟩) s :=
    System.ReachesBy.run_of_forall (.init hinit) hquiet hs
  exact ⟨s, s', hstep, by rw [hlog]; rfl, by rw [hlog']; rfl, newest_readable_stays h hstep⟩

/-- A tick committed beneath an unreadable one once the newest tick that reads is known. -/
def beneathUnreadable : List (PruneAction ℕ) :=
  .begin 0 50 10 [7] :: List.replicate 7 (.next 0) ++ .commit ⟨3, .text 7, 20, true⟩ ::
    List.replicate 9 (.next 0)

theorem newest_readable_pruned : ¬ ∀ (col : KeyColumn ℕ) (s s' : PruneRace ℕ) (a : PruneAction ℕ),
    (pruneRace col).Reachable s → (pruneRace col).step s a = some s' →
      ∀ row ∈ s.log, row ∉ s'.log → NewerReadable col s.log row := by
  intro hall
  let start := PruneRace.start [⟨1, .text 7, 10, true⟩, ⟨2, .text 7, 90, false⟩]
  have hinit : (pruneRace (⟨id, 0⟩ : KeyColumn ℕ)).init start :=
    ⟨⟨by decide, by decide⟩, rfl, fun _ => rfl⟩
  have hbefore : ((pruneRace ⟨id, 0⟩).run start beneathUnreadable).map (·.log) =
      some (start.log ++ [⟨3, .text 7, 20, true⟩]) := by
    decide +kernel
  have hafter : ((pruneRace ⟨id, 0⟩).run start (beneathUnreadable ++ [.next 0])).map (·.log) =
      some start.log := by
    decide +kernel
  obtain ⟨s, s', hs, hstep, hlog, hlog'⟩ := PruneRace.logs_of_run hbefore hafter
  have h := hall ⟨id, 0⟩ s s' (.next 0) (System.Reachable.of_run hinit hs) hstep ⟨3, .text 7, 20, true⟩
  rw [hlog, hlog'] at h
  revert h
  decide

end DjangoOx
