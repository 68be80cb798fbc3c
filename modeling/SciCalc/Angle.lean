import SciCalc.Number.Parts

namespace SciCalc

def radiansPerDegree : Float := Number.pi / 180

def degreesPerRadian : Float := 180 / Number.pi

/-- The unit in which angles are given and shown. -/
inductive AngleMode where
  | degrees
  | radians
  deriving DecidableEq, Repr, Inhabited

namespace AngleMode

def toggle : AngleMode → AngleMode
  | degrees => radians
  | radians => degrees

def label : AngleMode → String
  | degrees => "DEG"
  | radians => "RAD"

/-- An angle given in the unit of the mode, in radians. -/
def toRadians : AngleMode → Float → Float
  | degrees, x => x * radiansPerDegree
  | radians, x => x

/-- An angle given in radians, in the unit of the mode. -/
def ofRadians : AngleMode → Float → Float
  | degrees, x => x * degreesPerRadian
  | radians, x => x

end AngleMode

end SciCalc
