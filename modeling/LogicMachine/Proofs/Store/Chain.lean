import LogicMachine.Proofs.Store.Layout

/-!
# Chains of references

A chain of references ends at an unbound variable or at a cell that is no
reference.  No cell occurs twice in a chain that ends, so following it takes
fewer steps than there are cells.
-/

namespace LogicMachine

namespace Store

/-- A cell that is an unbound variable or no reference. -/
def IsRoot (store : Store) (address : Address) : Prop :=
  ∃ word, store.load address = .ok word ∧
    ∀ next, word.cell = .reference next → next = address

/-- Following references from one cell ends at another. -/
inductive Leads (store : Store) : Address → Address → Prop where
  | here {address : Address} (root : store.IsRoot address) :
      Leads store address address
  | there {address next root : Address} {word : Word}
      (found : store.load address = .ok word)
      (refers : word.cell = .reference next) (different : next ≠ address)
      (rest : Leads store next root) : Leads store address root

/-- A chain written out, from its first cell to the root. -/
inductive Chain (store : Store) : List Address → Address → Prop where
  | here {address : Address} (root : store.IsRoot address) :
      Chain store [address] address
  | there {address next root : Address} {rest : List Address} {word : Word}
      (found : store.load address = .ok word)
      (refers : word.cell = .reference next) (different : next ≠ address)
      (chain : Chain store (next :: rest) root) :
      Chain store (address :: next :: rest) root

namespace Leads

theorem root {store : Store} {address root : Address}
    (leads : store.Leads address root) : store.IsRoot root := by
  induction leads with
  | here root => exact root
  | there _ _ _ _ ih => exact ih

theorem exists_chain {store : Store} {address root : Address}
    (leads : store.Leads address root) :
    ∃ rest, store.Chain (address :: rest) root := by
  induction leads with
  | here root => exact ⟨[], .here root⟩
  | there found refers different _ ih =>
      obtain ⟨rest, chain⟩ := ih
      exact ⟨_ :: rest, .there found refers different chain⟩

end Leads

namespace Chain

/-- A chain is determined by its first cell. -/
theorem unique {store : Store} {address root other : Address}
    {rest others : List Address} (chain : store.Chain (address :: rest) root)
    (second : store.Chain (address :: others) other) :
    rest = others ∧ root = other := by
  generalize hcells : address :: rest = cells at chain
  induction chain generalizing address rest others with
  | here isRoot =>
      cases hcells
      obtain ⟨word, found, ends⟩ := isRoot
      cases second with
      | here => exact ⟨rfl, rfl⟩
      | there found' refers different _ =>
          rw [found] at found'
          cases found'
          exact absurd (ends _ refers) different
  | there found refers different _ ih =>
      cases hcells
      cases second with
      | here isRoot =>
          obtain ⟨word, found', ends⟩ := isRoot
          rw [found] at found'
          cases found'
          exact absurd (ends _ refers) different
      | there found' refers' _ chain =>
          rw [found] at found'
          cases found'
          rw [refers] at refers'
          cases refers'
          obtain ⟨rfl, rfl⟩ := ih chain rfl
          exact ⟨rfl, rfl⟩

/-- Every cell of a chain starts a chain of its own. -/
theorem of_mem {store : Store} {cells : List Address} {root address : Address}
    (chain : store.Chain cells root) (member : address ∈ cells) :
    ∃ rest, store.Chain (address :: rest) root ∧
      rest.length < cells.length := by
  induction chain with
  | here isRoot =>
      cases List.mem_singleton.mp member
      exact ⟨[], .here isRoot, by simp⟩
  | there found refers different chain ih =>
      rcases List.mem_cons.mp member with rfl | later
      · exact ⟨_, .there found refers different chain, by simp⟩
      · obtain ⟨rest, shorter, less⟩ := ih later
        exact ⟨rest, shorter, by simp at less ⊢; omega⟩

theorem nodup {store : Store} {cells : List Address} {root : Address}
    (chain : store.Chain cells root) : cells.Nodup := by
  induction chain with
  | here => simp
  | there found refers different chain ih =>
      refine List.nodup_cons.mpr ⟨?_, ih⟩
      intro member
      -- A second occurrence would start a shorter chain from the same cell.
      obtain ⟨rest, again, less⟩ := chain.of_mem member
      obtain ⟨rfl, -⟩ := unique (.there found refers different chain) again
      simp at less

theorem load_ok {store : Store} {cells : List Address} {root address : Address}
    (chain : store.Chain cells root) (member : address ∈ cells) :
    ∃ word, store.load address = .ok word := by
  induction chain with
  | here isRoot =>
      cases List.mem_singleton.mp member
      obtain ⟨word, found, -⟩ := isRoot
      exact ⟨word, found⟩
  | there found _ _ _ ih =>
      rcases List.mem_cons.mp member with rfl | later
      · exact ⟨_, found⟩
      · exact ih later

theorem derefWithin_eq {store : Store} {address root : Address}
    {rest : List Address} (chain : store.Chain (address :: rest) root)
    {steps : Nat} (enough : rest.length < steps) :
    store.derefWithin steps address = .ok root := by
  generalize hcells : address :: rest = cells at chain
  induction chain generalizing address rest steps with
  | here isRoot =>
      cases hcells
      obtain ⟨word, found, ends⟩ := isRoot
      cases steps with
      | zero => simp at enough
      | succ steps =>
          simp only [derefWithin, found]
          split
          case h_1 next refers => rw [if_pos (ends next refers)]
          case h_2 => rfl
  | there found refers different _ ih =>
      cases hcells
      cases steps with
      | zero => simp at enough
      | succ steps =>
          simp only [derefWithin, found, refers, different, if_false]
          exact ih (by simpa using enough) rfl

end Chain

/-- The number of a cell among all cells. -/
def position (store : Store) : Address → Nat
  | .heap index => index.toNatClampNeg
  | .retained index => store.heap.size + index.toNatClampNeg
  | .stack index =>
      store.heap.size + store.retained.size + index.toNatClampNeg
  | _ => 0

theorem position_lt {store : Store} {address : Address} {word : Word}
    (found : store.load address = .ok word) :
    store.position address < store.cellCount := by
  have room := room_of_load found
  unfold cellCount
  cases address with
  | heap index | retained index | stack index =>
      simp only [position] at room ⊢
      omega
  | _ => cases room

theorem position_inj {store : Store} {left right : Address}
    {leftWord rightWord : Word} (leftFound : store.load left = .ok leftWord)
    (rightFound : store.load right = .ok rightWord)
    (same : store.position left = store.position right) : left = right := by
  have leftRoom := room_of_load leftFound
  have rightRoom := room_of_load rightFound
  cases left with
  | heap index | retained index | stack index =>
      cases right with
      | heap other | retained other | stack other =>
          simp only [position] at leftRoom rightRoom same
          first
          | exact congrArg _
              (toNatClampNeg_inj leftRoom.1 rightRoom.1 (by omega))
          | omega
      | _ => cases rightRoom
  | _ => cases leftRoom

/-- A list without repeats of cells that can be read is no longer than the
store. -/
theorem length_le_cellCount {store : Store} {addresses : List Address}
    (distinct : addresses.Nodup)
    (present : ∀ address ∈ addresses, ∃ word, store.load address = .ok word) :
    addresses.length ≤ store.cellCount := by
  have positions : (addresses.map store.position).Nodup := by
    refine List.Nodup.map_on ?_ distinct
    intro left leftMember right rightMember same
    obtain ⟨_, leftFound⟩ := present left leftMember
    obtain ⟨_, rightFound⟩ := present right rightMember
    exact position_inj leftFound rightFound same
  have bounded : addresses.map store.position ⊆
      List.range store.cellCount := by
    intro position member
    obtain ⟨address, inside, rfl⟩ := List.mem_map.mp member
    obtain ⟨_, found⟩ := present address inside
    exact List.mem_range.mpr (position_lt found)
  have shorter := (List.subperm_of_subset positions bounded).length_le
  simpa using shorter

theorem Leads.deref_eq {store : Store} {address root : Address}
    (leads : store.Leads address root) : store.deref address = .ok root := by
  obtain ⟨rest, chain⟩ := leads.exists_chain
  have short := length_le_cellCount chain.nodup
    (fun _ member => chain.load_ok member)
  apply chain.derefWithin_eq
  simp only [List.length_cons] at short
  omega

theorem leads_of_derefWithin {store : Store} {steps : Nat}
    {address root : Address}
    (found : store.derefWithin steps address = .ok root) :
    store.Leads address root := by
  induction steps generalizing address with
  | zero => cases found
  | succ steps ih =>
      simp only [derefWithin] at found
      cases read : store.load address with
      | error fault => simp [read] at found
      | ok word =>
          simp only [read] at found
          cases decoded : word.cell with
          | reference next =>
              simp only [decoded] at found
              by_cases self : next = address
              · rw [if_pos self] at found
                cases found
                refine .here ⟨word, read, ?_⟩
                intro other refers
                rw [decoded] at refers
                cases refers
                exact self
              · rw [if_neg self] at found
                exact .there read decoded self (ih found)
          | _ =>
              simp only [decoded] at found
              cases found
              refine .here ⟨word, read, ?_⟩
              intro other refers
              rw [decoded] at refers
              cases refers

theorem deref_eq_ok_iff {store : Store} {address root : Address} :
    store.deref address = .ok root ↔ store.Leads address root :=
  ⟨leads_of_derefWithin, Leads.deref_eq⟩

/-- Chains of one store are chains of another if every cell of the chain but
the one that was bound is the same there, and the bound one leads on. -/
theorem Leads.transfer {store later : Store} {cells : Set Address}
    (closed : ∀ address ∈ cells, ∀ word, store.load address = .ok word →
      ∀ next, word.cell = .reference next → next ∈ cells)
    (onward : ∀ address ∈ cells, later.load address = store.load address ∨
      ∃ root, later.Leads address root)
    {address root : Address} (inside : address ∈ cells)
    (leads : store.Leads address root) :
    ∃ root, later.Leads address root := by
  induction leads with
  | @here address isRoot =>
      rcases onward address inside with same | leadsOn
      · obtain ⟨word, found, ends⟩ := isRoot
        exact ⟨address, .here ⟨word, same.trans found, ends⟩⟩
      · exact leadsOn
  | @there address next root word found refers different _ ih =>
      rcases onward address inside with same | leadsOn
      · obtain ⟨laterRoot, rest⟩ := ih (closed _ inside _ found _ refers)
        exact ⟨laterRoot, .there (same.trans found) refers different rest⟩
      · exact leadsOn

theorem Leads.mem {store : Store} {cells : Set Address}
    (closed : ∀ address ∈ cells, ∀ word, store.load address = .ok word →
      ∀ next, word.cell = .reference next → next ∈ cells)
    {address root : Address} (inside : address ∈ cells)
    (leads : store.Leads address root) : root ∈ cells := by
  induction leads with
  | here => exact inside
  | there found refers _ _ ih => exact ih (closed _ inside _ found _ refers)

end Store

end LogicMachine
