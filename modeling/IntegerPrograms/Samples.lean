import IntegerPrograms.ProblemFile

set_option autoImplicit false

namespace IntegerPrograms

structure Sample where
  name : String
  family : String
  source : String
  expected : Option Float
  problem : ProblemFile Float

namespace Sample

def linear : List Sample :=
  [ { name := "LP_SINGLE_ROW", family := "LP", source := "synthetic", expected := some 10
      problem := { c := [1, 1], A := [[1, 1]], b := [10], maximize := true } },
    { name := "LP_TWO_PHASE", family := "LP", source := "synthetic", expected := some 21
      problem :=
        { c := [5, 4], A := [[6, 4], [1, 2], [-1, -1]], b := [24, 6, -1], maximize := true } },
    { name := "LP_CONTRADICTORY", family := "LP", source := "synthetic", expected := none
      problem := { c := [1, 1], A := [[1, 0], [-1, 0]], b := [1, -2], integers := [0] } } ]

def mixed : List Sample :=
  [ { name := "MILP_KNAPSACK", family := "MILP", source := "synthetic", expected := some 20
      problem :=
        { c := [5, 4], A := [[6, 4], [1, 2]], b := [24, 6], integers := [0, 1], maximize := true } },
    { name := "MILP_TRIANGLE", family := "MILP", source := "Gomory textbook example"
      expected := some 1
      problem :=
        { c := [0, 1], A := [[3, 2], [-3, 2]], b := [6, 0], integers := [0, 1], maximize := true } },
    { name := "MILP_INTEGRAL_ROOT", family := "MILP", source := "synthetic", expected := some 0
      problem := { c := [1, 1], A := [[1, 1]], b := [10], integers := [0, 1] } },
    { name := "MILP_EMPTY_INTERVAL", family := "MILP", source := "synthetic", expected := none
      problem := { c := [1], A := [[1], [-1]], b := [0.8, -0.2], integers := [0] } } ]

def all : List Sample := linear ++ mixed

end Sample

end IntegerPrograms
