namespace CircuitTrace

inductive Strategy where
  /-- One register per wire and two equal rows. -/
  | singleRow
  /-- The wires are spread over the rows of a narrower trace. -/
  | packed
  /-- A single row while it is narrow enough, packed rows otherwise. -/
  | auto
  deriving DecidableEq

def Strategy.name : Strategy → String
  | .singleRow => "single_row"
  | .packed => "packed"
  | .auto => "auto"

end CircuitTrace
