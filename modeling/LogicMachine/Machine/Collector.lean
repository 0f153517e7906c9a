import LogicMachine.Machine.Basic

/-!
# Collectors

A collector gathers words across backtracking: nothing that it holds is given up
when a choice is undone.  Collectors are nested like the goals that open them.
-/

namespace LogicMachine

namespace MachineM

/-- Opens a collector. -/
def beginCollect : MachineM Unit :=
  modify fun machine =>
    { machine with collectors := [] :: machine.collectors }

/-- Adds a word to the innermost collector, if there is one. -/
def collect (word : Word) : MachineM Bool :=
  modifyGet fun machine =>
    match machine.collectors with
    | [] => (false, machine)
    | innermost :: rest =>
        (true, { machine with collectors := (word :: innermost) :: rest })

/-- Closes the innermost collector and returns its words, oldest first. -/
def endCollect : MachineM (Option (List Word)) :=
  modifyGet fun machine =>
    match machine.collectors with
    | [] => (none, machine)
    | innermost :: rest =>
        (some innermost.reverse, { machine with collectors := rest })

end MachineM

end LogicMachine
