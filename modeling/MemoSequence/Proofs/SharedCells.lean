import MemoSequence.Proofs.Versions
set_option autoImplicit false

namespace MemoSequence.Segments

universe u

/-- Where a chain of cells begins, and how many cells it has as it is stored. -/
structure Link where
  head : Option ℕ
  count : ℕ

structure Cell (σ : Type u) where
  value : σ
  next : Link

/-- The cells that have been made, the latest one first. The address of a cell is the number of earlier ones. -/
abbrev Memory (σ : Type u) := List (Cell σ)

variable {σ : Type u}

namespace Memory

def cell? : Memory σ → ℕ → Option (Cell σ)
  | [], _ => none
  | cell :: older, a => if a = older.length then some cell else cell? older a

def values : Memory σ → Option ℕ → List σ
  | _, none => []
  | [], some _ => []
  | cell :: older, some a =>
    if a = older.length then cell.value :: values older cell.next.head else values older (some a)

end Memory

namespace Link

def empty : Link := ⟨none, 0⟩

def push (link : Link) (x : σ) (m : Memory σ) : Link × Memory σ :=
  (⟨some m.length, link.count + 1⟩, ⟨x, link⟩ :: m)

def uncons? (link : Link) (m : Memory σ) : Option (σ × Link) :=
  match link.head with
  | none => none
  | some a => (m.cell? a).map fun cell => (cell.value, cell.next)

def reversed (link : Link) (m : Memory σ) : Link × Memory σ :=
  (m.values link.head).foldl (fun made x => made.1.push x made.2) (empty, m)

end Link

def chained : Queues σ (Memory σ) (Link × Link) where
  pair first second m :=
    let inner := Link.empty.push second m
    let outer := inner.1.push first inner.2
    ((outer.1, .empty), outer.2)
  pushFront q x m :=
    let front := q.1.push x m
    ((front.1, q.2), front.2)
  pushBack q x m :=
    let back := q.2.push x m
    ((q.1, back.1), back.2)
  popFront q m :=
    match q.1.uncons? m with
    | some (x, front) => (some (x, (front, q.2)), m)
    | none =>
      let turned := q.2.reversed m
      (turned.1.uncons? turned.2 |>.map fun p => (p.1, (p.2, .empty)), turned.2)

section Chains

/-- The chain that begins with this link has the items of the stack, and every link in it stores how many
cells follow. -/
inductive Holds (m : Memory σ) : Link → Stack σ → Prop
  | empty : Holds m .empty .empty
  | push {a : ℕ} {cell : Cell σ} {s : Stack σ} (h : m.cell? a = some cell)
      (hlt : ∀ b ∈ cell.next.head, b < a) (hs : Holds m cell.next s) :
      Holds m ⟨some a, cell.next.count + 1⟩ (s.push cell.value)

variable {m m' : Memory σ} {link : Link} {s : Stack σ} {a : ℕ} {cell : Cell σ}

theorem cell?_lt (h : m.cell? a = some cell) : a < m.length := by
  induction m with
  | nil => cases h
  | cons first older ih =>
    rw [List.length_cons]
    rw [Memory.cell?] at h
    split_ifs at h with ha
    · omega
    · exact Nat.lt_succ_of_lt (ih h)

theorem cell?_append (more : Memory σ) (h : a < m.length) : Memory.cell? (more ++ m) a = m.cell? a := by
  induction more with
  | nil => rfl
  | cons first more ih =>
    have hne : a ≠ (more ++ m).length := by
      rw [List.length_append]
      omega
    rw [List.cons_append, Memory.cell?, if_neg hne, ih]

theorem cell?_latest (cell : Cell σ) (m : Memory σ) : Memory.cell? (cell :: m) m.length = some cell :=
  if_pos rfl

theorem Holds.head_lt (h : Holds m link s) : ∀ b ∈ link.head, b < m.length := by
  cases h with
  | empty => nofun
  | push h _ _ =>
    rintro b ⟨⟩
    exact cell?_lt h

theorem Holds.append (more : Memory σ) (h : Holds m link s) : Holds (more ++ m) link s := by
  induction h with
  | empty => exact .empty
  | push h hlt _ ih => exact .push ((cell?_append more (cell?_lt h)).trans h) hlt ih

theorem Holds.older (more : Memory σ) (h : Holds (more ++ m) link s)
    (hlink : ∀ b ∈ link.head, b < m.length) : Holds m link s := by
  induction h with
  | empty => exact .empty
  | push h hlt _ ih =>
    have ha := hlink _ rfl
    exact .push ((cell?_append more ha).symm.trans h) hlt (ih fun b hb => Nat.lt_trans (hlt b hb) ha)

theorem Holds.values (h : Holds m link s) : m.values link.head = s.items := by
  induction m generalizing link s with
  | nil =>
    cases h with
    | empty => rfl
    | push h _ _ => cases h
  | cons first older ih =>
    obtain ⟨head, count⟩ := link
    cases head with
    | none =>
      cases h
      rfl
    | some a =>
      by_cases ha : a = older.length
      · cases h with
        | @push _ cell s h hlt hs =>
          rw [Memory.cell?, if_pos ha] at h
          obtain rfl := Option.some.inj h
          have hrest := hs.older [first] fun b hb => ha ▸ hlt b hb
          rw [Memory.values, if_pos ha, ih hrest]
          rfl
      · have hlt : a < older.length := by
          have hle := h.head_lt a rfl
          rw [List.length_cons] at hle
          omega
        have hrest : Holds older ⟨some a, count⟩ s := h.older [first] fun b hb => Option.some.inj hb ▸ hlt
        rw [Memory.values, if_neg ha]
        exact ih hrest

theorem Holds.height (h : Holds m link s) : link.count = s.height := by
  induction h with
  | empty => rfl
  | push _ _ _ ih => exact congrArg Nat.succ ih

theorem Holds.sized (h : Holds m link s) : s.Sized := by
  induction h with
  | empty => exact Stack.sized_empty
  | push _ _ _ ih => exact ih.push _

theorem Holds.length (h : Holds m link s) : link.count = (m.values link.head).length := by
  rw [h.values, h.height]
  exact h.sized

theorem Holds.grown (h : Holds m link s) (hm : m <:+ m') : Holds m' link s := by
  obtain ⟨more, rfl⟩ := hm
  exact h.append more

def Sound (m : Memory σ) : Prop := ∀ cell ∈ m, ∃ s, Holds m cell.next s

structure Stores (m : Memory σ) (made : Link × Memory σ) (s : Stack σ) : Prop where
  grown : m <:+ made.2
  sound : Sound made.2
  holds : Holds made.2 made.1 s

theorem push_stores (hm : Sound m) (h : Holds m link s) (x : σ) : Stores m (link.push x m) (s.push x) where
  grown := List.suffix_cons _ _
  sound := List.forall_mem_cons.2
    ⟨⟨s, h.append [_]⟩, fun cell hcell => (hm cell hcell).imp fun _ ht => ht.append [_]⟩
  holds := .push (cell?_latest ⟨x, link⟩ m) h.head_lt (h.append [_])

theorem Stores.push {made : Link × Memory σ} (h : Stores m made s) (x : σ) :
    Stores m (made.1.push x made.2) (s.push x) := by
  have hpush := push_stores h.sound h.holds x
  exact ⟨h.grown.trans hpush.grown, hpush.sound, hpush.holds⟩

theorem Stores.pushAll {made : Link × Memory σ} (h : Stores m made s) (xs : List σ) :
    Stores m (xs.foldl (fun made x => made.1.push x made.2) made) (xs.foldl Stack.push s) := by
  induction xs generalizing made s with
  | nil => exact h
  | cons x rest ih => exact ih (h.push x)

theorem foldl_push (xs : List σ) (s : Stack σ) :
    xs.foldl Stack.push s = ⟨xs.reverse ++ s.items, s.height + xs.length⟩ := by
  induction xs generalizing s with
  | nil => rfl
  | cons x rest ih =>
    rw [List.foldl_cons, ih, Stack.push, List.reverse_cons, List.append_assoc, List.singleton_append,
      List.length_cons, Nat.add_right_comm, Nat.add_assoc]

theorem reversed_stores (hm : Sound m) (h : Holds m link s) : Stores m (link.reversed m) s.reversed := by
  have hempty : Stores m (.empty, m) .empty := ⟨List.suffix_rfl, hm, .empty⟩
  have hall := hempty.pushAll s.items
  have hreversed : s.items.foldl Stack.push .empty = s.reversed := by
    rw [foldl_push, Stack.reversed, h.sized]
    simp [Stack.empty]
  rwa [hreversed, ← h.values] at hall

theorem Holds.uncons (h : Holds m link s) :
    Option.Rel (fun p p' => p.1 = p'.1 ∧ Holds m p.2 p'.2) (link.uncons? m) s.uncons? := by
  cases h with
  | empty => exact .none
  | @push a cell s h _ hs =>
    have huncons : Link.uncons? ⟨some a, cell.next.count + 1⟩ m = some (cell.value, cell.next) :=
      congrArg (Option.map _) h
    rw [huncons]
    exact .some ⟨rfl, hs⟩

def Linked (m : Memory σ) (q : Link × Link) (s : Segments σ) : Prop :=
  Holds m q.1 s.front ∧ Holds m q.2 s.back

theorem Linked.grown {q : Link × Link} {s : Segments σ} (h : Linked m q s) (hm : m <:+ m') : Linked m' q s :=
  ⟨h.1.grown hm, h.2.grown hm⟩

theorem Stores.made {made : Link × Memory σ} {q : Link × Link} {t : Segments σ} (h : Stores m made s)
    (hq : Linked made.2 q t) : Made Sound Linked m (q, made.2) t :=
  ⟨h.sound, fun _ _ hq => hq.grown h.grown, hq⟩

theorem chained_represents : Represents (σ := σ) chained stacked Sound Linked where
  pair hm first second := by
    have houter := (push_stores hm .empty second).push first
    exact houter.made ⟨houter.holds, .empty⟩
  pushFront hm hq x := by
    have hfront := push_stores hm hq.1 x
    exact hfront.made ⟨hfront.holds, hq.2.grown hfront.grown⟩
  pushBack hm hq x := by
    have hback := push_stores hm hq.2 x
    exact hback.made ⟨hq.1.grown hback.grown, hback.holds⟩
  popFront := by
    intro m q s hm hq
    have hfront := hq.1.uncons
    simp only [chained, stacked, popFront?]
    generalize q.1.uncons? m = popped at hfront
    generalize s.front.uncons? = popped' at hfront
    cases hfront with
    | some h =>
      obtain ⟨hx, hrest⟩ := h
      dsimp only
      rw [hx]
      exact .first _ ⟨hm, .refl _ _, hrest, hq.2⟩
    | none =>
      -- the front has run dry, and the values of the back get new cells in the other order
      have hturned := reversed_stores hm hq.2
      have hback := hturned.holds.uncons
      dsimp only
      generalize (q.2.reversed m).1.uncons? (q.2.reversed m).2 = popped at hback
      generalize s.back.reversed.uncons? = popped' at hback
      cases hback with
      | some h =>
        obtain ⟨hx, hrest⟩ := h
        dsimp only [Option.map_some]
        rw [hx]
        exact .first _ (hturned.made ⟨hrest, .empty⟩)
      | none => exact .nothing hturned.sound fun _ _ hq => hq.grown hturned.grown

end Chains

section Persisting

def contentsAlong (m : Memory σ) (q : Link × Link) : List σ := m.values q.1.head ++ (m.values q.2.head).reverse

theorem Linked.contents_eq {m : Memory σ} {q : Link × Link} {s : Segments σ} (h : Linked m q s) :
    contentsAlong m q = s.contents := by
  rw [contentsAlong, h.1.values, h.2.values, contents]

def Versions.links (vs : Versions σ (Memory σ) (Link × Link)) : List Link :=
  vs.queues.flatMap (fun q => [q.1, q.2]) ++ vs.memory.map Cell.next

/-- A queue and its operations, told by what it holds. -/
structure Lawful (s : Segments σ) : Prop where
  pushFront : ∀ x, (s.pushFront x).contents = x :: s.contents
  pushBack : ∀ x, (s.pushBack x).contents = s.contents ++ [x]
  popped : ∀ x rest, s.popFront? = some (x, rest) → s.contents = x :: rest.contents
  nothing : s.popFront? = none ↔ s.contents = []
  isEmpty : s.isEmpty = true ↔ s.contents = []
  members : s.members.Perm s.contents
  sized : s.Sized

theorem Sized.lawful {s : Segments σ} (h : s.Sized) : s.Lawful where
  pushFront := contents_pushFront s
  pushBack := contents_pushBack s
  popped _ _ hp := contents_popFront hp
  nothing := popFront?_eq_none s
  isEmpty := isEmpty_iff s
  members := members_perm s
  sized := h

/-- What is certain of all versions after a history, and of the cells that they share. -/
structure Persists (history : List (Operation σ)) : Prop where
  answers : (stacked.after () history).popped = (listed.after () history).popped
  contents : (stacked.after () history).queues.map contents = (listed.after () history).queues
  lawful : ∀ s ∈ (stacked.after () history).queues, s.Lawful
  linked : Alike Sound Linked (chained.after [] history) (stacked.after () history)
  counted : ∀ link ∈ (chained.after [] history).links,
    link.count = ((chained.after [] history).memory.values link.head).length
  kept : ∀ later,
    (stacked.after () history).queues <+: (stacked.after () (history ++ later)).queues ∧
      (chained.after [] history).queues <+: (chained.after [] (history ++ later)).queues ∧
      ∀ q ∈ (chained.after [] history).queues,
        contentsAlong (chained.after [] (history ++ later)).memory q =
          contentsAlong (chained.after [] history).memory q

theorem Alike.exists_linked {vs : Versions σ (Memory σ) (Link × Link)} {vs' : Versions σ Unit (Segments σ)}
    (h : Alike Sound Linked vs vs') : ∀ q ∈ vs.queues, ∃ s, Linked vs.memory q s :=
  ((List.forall₂_and_left _ _).1 (h.queues.imp fun _ s hq => ⟨⟨s, hq⟩, hq⟩)).1

theorem Alike.counted {vs : Versions σ (Memory σ) (Link × Link)} {vs' : Versions σ Unit (Segments σ)}
    (h : Alike Sound Linked vs vs') :
    ∀ link ∈ vs.links, link.count = (vs.memory.values link.head).length := by
  intro link hlink
  obtain hqueue | hcell := List.mem_append.1 hlink
  · obtain ⟨q, hq, hends⟩ := List.mem_flatMap.1 hqueue
    obtain ⟨s, hfront, hback⟩ := h.exists_linked q hq
    obtain rfl | hends := List.mem_cons.1 hends
    · exact hfront.length
    · obtain rfl := List.mem_singleton.1 hends
      exact hback.length
  · obtain ⟨cell, hmem, rfl⟩ := List.mem_map.1 hcell
    obtain ⟨s, hs⟩ := h.sound cell hmem
    exact hs.length

theorem chained_after (history : List (Operation σ)) :
    Alike Sound Linked (chained.after [] history) (stacked.after () history) :=
  chained_represents.after (List.forall_mem_nil _) history

/-- Operations on any versions make those that lists would make, and leave all earlier ones as they were. -/
theorem versions_persist (history : List (Operation σ)) : Persists history where
  answers := (stacked_after history).popped
  contents := stacked_contents history
  lawful s hs := (stacked_sized history s hs).lawful
  linked := chained_after history
  counted := (chained_after history).counted
  kept later := by
    have hkeeps := (chained_represents.run (chained_after history) later).2
    rw [Queues.after_append, Queues.after_append]
    refine ⟨stacked.run_queues _ later, chained.run_queues _ later, fun q hq => ?_⟩
    obtain ⟨s, hs⟩ := (chained_after history).exists_linked q hq
    rw [hs.contents_eq, (hkeeps q s hs).contents_eq]

/-- The version from before its back is turned over is popped twice, and gives the same. -/
example :
    (chained.after [] [.pair 0 1, .pushBack 0 2, .popFront 1, .popFront 2, .popFront 3, .popFront 3,
      .popFront 4, .popFront 1]).popped = [some 0, some 1, some 2, some 2, none, some 0] := by rfl

end Persisting

end MemoSequence.Segments
