import Mathlib.Data.List.Perm.Subperm

/-! # Bounded breadth-first walks

A walk takes nodes from the front of a queue. A node already visited, or one that `next` drops, is
passed over; any other is visited and its successors go to the back. The walk fails once it has
visited as many nodes as its bound. What a walk returns depends on `next` only at the nodes of a set
that the queue starts in and that `next` never leaves; it visits the nodes that it keeps and reaches. -/
namespace CitrateChain.Walk
variable {α ε : Type*} [DecidableEq α] {next next' : α → Except ε (Option (List α))}

/-- The first node of the queue that is to be visited, its successors, and the queue behind it. -/
def nextFresh (next : α → Except ε (Option (List α))) (visited : List α) :
    List α → Except ε (Option (α × List α × List α))
  | [] => .ok none
  | x :: queue =>
    if x ∈ visited then nextFresh next visited queue
    else
      match next x with
      | .error e => .error e
      | .ok none => nextFresh next visited queue
      | .ok (some succs) => .ok (some (x, succs, queue))

/-- The nodes visited from `queue`, newest first; `full` once `n` more have been visited. -/
def visit (next : α → Except ε (Option (List α))) (full : ε) :
    ℕ → List α → List α → Except ε (List α)
  | 0, _, _ => .error full
  | n + 1, visited, queue =>
    match nextFresh next visited queue with
    | .error e => .error e
    | .ok none => .ok visited
    | .ok (some (x, succs, rest)) => visit next full n (x :: visited) (rest ++ succs)

def Closed (next : α → Except ε (Option (List α))) (S : α → Prop) : Prop :=
  ∀ x succs, S x → next x = .ok (some succs) → ∀ y ∈ succs, S y

variable {S : α → Prop}

theorem nextFresh_congr (heq : ∀ x, S x → next x = next' x) (visited : List α) :
    ∀ queue, (∀ x ∈ queue, S x) → nextFresh next visited queue = nextFresh next' visited queue
  | [], _ => rfl
  | x :: queue, hq => by
    have ih := nextFresh_congr heq visited queue fun y hy => hq y (List.mem_cons_of_mem _ hy)
    simp only [nextFresh, ← heq x (hq x List.mem_cons_self), ih]

theorem nextFresh_mem {visited : List α} {x : α} {succs rest : List α} :
    ∀ {queue}, (∀ y ∈ queue, S y) → nextFresh next visited queue = .ok (some (x, succs, rest)) →
      S x ∧ x ∉ visited ∧ next x = .ok (some succs) ∧ ∀ y ∈ rest, S y
  | [], _, h => nomatch h
  | y :: queue, hq, h => by
    have hqueue : ∀ z ∈ queue, S z := fun z hz => hq z (List.mem_cons_of_mem _ hz)
    rw [nextFresh] at h
    split at h
    · exact nextFresh_mem hqueue h
    · rename_i hfresh
      split at h
      · cases h
      · exact nextFresh_mem hqueue h
      · rename_i hnext
        obtain ⟨rfl, rfl, rfl⟩ : y = x ∧ _ = succs ∧ queue = rest := by simpa using h
        exact ⟨hq _ List.mem_cons_self, hfresh, hnext, hqueue⟩

theorem visit_congr {full : ε} (hc : Closed next S) (heq : ∀ x, S x → next x = next' x) :
    ∀ n visited queue, (∀ x ∈ queue, S x) →
      visit next full n visited queue = visit next' full n visited queue
  | 0, _, _, _ => rfl
  | n + 1, visited, queue, hq => by
    rw [visit, visit, ← nextFresh_congr heq visited queue hq]
    split
    · rfl
    · rfl
    · rename_i x succs rest hfresh
      obtain ⟨hx, -, hnext, hrest⟩ := nextFresh_mem hq hfresh
      apply visit_congr hc heq
      intro y hy
      rcases List.mem_append.mp hy with hy | hy
      · exact hrest y hy
      · exact hc x succs hx hnext y hy

section Visited
variable {x y : α} {visited queue succs rest res : List α}

def Kept (next : α → Except ε (Option (List α))) (x : α) : Prop := ∃ succs, next x = .ok (some succs)

def Edge (next : α → Except ε (Option (List α))) (x y : α) : Prop :=
  ∃ succs, next x = .ok (some succs) ∧ y ∈ succs

theorem nextFresh_none (h : nextFresh next visited queue = .ok none) :
    ∀ y ∈ queue, Kept next y → y ∈ visited := by
  induction queue with
  | nil => exact nofun
  | cons z queue ih =>
    intro y hy hkept
    rw [nextFresh] at h
    split at h
    · rename_i hz
      rcases List.mem_cons.mp hy with rfl | hy
      · exact hz
      · exact ih h y hy hkept
    split at h
    · cases h
    · rename_i hnext
      rcases List.mem_cons.mp hy with rfl | hy
      · obtain ⟨succs, hsuccs⟩ := hkept
        cases hnext.symm.trans hsuccs
      · exact ih h y hy hkept
    · cases h

theorem nextFresh_some (h : nextFresh next visited queue = .ok (some (x, succs, rest))) :
    x ∈ queue ∧ x ∉ visited ∧ next x = .ok (some succs) ∧ (∀ y ∈ rest, y ∈ queue) ∧
      ∀ y ∈ queue, Kept next y → y ∈ visited ∨ y = x ∨ y ∈ rest := by
  induction queue with
  | nil => cases h
  | cons z queue ih =>
    rw [nextFresh] at h
    have hskip (h : nextFresh next visited queue = .ok (some (x, succs, rest)))
        (hz : Kept next z → z ∈ visited) :
        x ∈ z :: queue ∧ x ∉ visited ∧ next x = .ok (some succs) ∧ (∀ y ∈ rest, y ∈ z :: queue) ∧
          ∀ y ∈ z :: queue, Kept next y → y ∈ visited ∨ y = x ∨ y ∈ rest := by
      obtain ⟨hx, hfresh, hnext, hrest, hpassed⟩ := ih h
      exact ⟨List.mem_cons_of_mem _ hx, hfresh, hnext, fun y hy => List.mem_cons_of_mem _ (hrest y hy),
        List.forall_mem_cons.mpr ⟨fun hkept => Or.inl (hz hkept), hpassed⟩⟩
    split at h
    · rename_i hz
      exact hskip h fun _ => hz
    · rename_i hfresh
      split at h
      · cases h
      · rename_i hdrop
        exact hskip h fun ⟨_, hsuccs⟩ => nomatch hdrop.symm.trans hsuccs
      · rename_i hnext
        obtain ⟨rfl, rfl, rfl⟩ : z = x ∧ _ = succs ∧ queue = rest := by simpa using h
        refine ⟨List.mem_cons_self, hfresh, hnext, fun y hy => List.mem_cons_of_mem _ hy, ?_⟩
        intro y hy _
        exact Or.inr (List.mem_cons.mp hy)

/-- The invariant of a walk: a successor of a visited node was visited, waits, or is dropped. -/
def Pending (next : α → Except ε (Option (List α))) (visited queue : List α) : Prop :=
  ∀ v ∈ visited, ∀ y, Edge next v y → Kept next y → y ∈ visited ∨ y ∈ queue

theorem Pending.step (hp : Pending next visited queue)
    (h : nextFresh next visited queue = .ok (some (x, succs, rest))) :
    Pending next (x :: visited) (rest ++ succs) := by
  obtain ⟨-, -, hnext, -, hpassed⟩ := nextFresh_some h
  intro v hv y hedge hkept
  rcases List.mem_cons.mp hv with rfl | hv
  · obtain ⟨succs', hnext', hy⟩ := hedge
    rw [hnext] at hnext'
    obtain rfl : succs = succs' := by simpa using hnext'
    exact Or.inr (List.mem_append_right _ hy)
  · rcases hp v hv y hedge hkept with hy | hy
    · exact Or.inl (List.mem_cons_of_mem _ hy)
    · rcases hpassed y hy hkept with hy | rfl | hy
      · exact Or.inl (List.mem_cons_of_mem _ hy)
      · exact Or.inl List.mem_cons_self
      · exact Or.inr (List.mem_append_left _ hy)

variable {full : ε} {n : ℕ}

theorem visit_closed (hp : Pending next visited queue)
    (h : visit next full n visited queue = .ok res) :
    (∀ y ∈ visited, y ∈ res) ∧ (∀ y ∈ queue, Kept next y → y ∈ res) ∧
      ∀ v ∈ res, ∀ y, Edge next v y → Kept next y → y ∈ res := by
  induction n generalizing visited queue with
  | zero => cases h
  | succ n ih =>
    rw [visit] at h
    split at h
    · cases h
    · rename_i hnone
      cases h
      have hdone := nextFresh_none hnone
      refine ⟨fun y hy => hy, hdone, ?_⟩
      intro v hv y hedge hkept
      rcases hp v hv y hedge hkept with hy | hy
      · exact hy
      · exact hdone y hy hkept
    · rename_i x succs rest hsome
      obtain ⟨-, -, -, -, hpassed⟩ := nextFresh_some hsome
      obtain ⟨hvisited, hqueue, hclosed⟩ := ih (hp.step hsome) h
      refine ⟨fun y hy => hvisited y (List.mem_cons_of_mem _ hy), ?_, hclosed⟩
      intro y hy hkept
      rcases hpassed y hy hkept with hy | rfl | hy
      · exact hvisited y (List.mem_cons_of_mem _ hy)
      · exact hvisited y List.mem_cons_self
      · exact hqueue y (List.mem_append_left _ hy) hkept

theorem visit_subset {S : α → Prop} (hc : Closed next S) (hq : ∀ y ∈ queue, S y)
    (hv : ∀ y ∈ visited, S y ∧ Kept next y) (hnd : visited.Nodup)
    (h : visit next full n visited queue = .ok res) :
    (∀ y ∈ res, S y ∧ Kept next y) ∧ res.Nodup := by
  induction n generalizing visited queue with
  | zero => cases h
  | succ n ih =>
    rw [visit] at h
    split at h
    · cases h
    · cases h
      exact ⟨hv, hnd⟩
    rename_i x succs rest hsome
    obtain ⟨hx, hfresh, hnext, hrest, -⟩ := nextFresh_some hsome
    refine ih ?_ ?_ (List.nodup_cons.mpr ⟨hfresh, hnd⟩) h
    · intro y hy
      rcases List.mem_append.mp hy with hy | hy
      · exact hq y (hrest y hy)
      · exact hc x succs (hq x hx) hnext y hy
    · intro y hy
      rcases List.mem_cons.mp hy with rfl | hy
      · exact ⟨hq y hx, succs, hnext⟩
      · exact hv y hy

theorem mem_visit_iff (h : visit next full n [] [x] = .ok res) :
    y ∈ res ↔ Relation.ReflTransGen (Edge next) x y ∧ Kept next y := by
  constructor
  · intro hy
    have hclosed : Closed next (Relation.ReflTransGen (Edge next) x) := by
      intro u succs hu hnext v hv
      exact hu.tail ⟨succs, hnext, hv⟩
    refine (visit_subset hclosed ?_ ?_ List.nodup_nil h).1 y hy
    · intro z hz
      rw [List.mem_singleton.mp hz]
    · exact nofun
  · rintro ⟨hreach, hkept⟩
    obtain ⟨-, hqueue, hclosed⟩ := visit_closed nofun h
    induction hreach with
    | refl => exact hqueue x (List.mem_singleton.mpr rfl) hkept
    | @tail u v _ hedge ih =>
      obtain ⟨succs, hnext, -⟩ := id hedge
      exact hclosed u (ih ⟨succs, hnext⟩) v hedge hkept

theorem nodup_visit (h : visit next full n [] [x] = .ok res) : res.Nodup := by
  have hall : Closed next fun _ => True := fun _ _ _ _ _ _ => trivial
  refine (visit_subset hall (fun _ _ => trivial) ?_ List.nodup_nil h).2
  exact nofun

end Visited

end CitrateChain.Walk
